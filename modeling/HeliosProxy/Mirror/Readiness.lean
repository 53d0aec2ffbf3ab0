import HeliosProxy.Lib.Lists
import HeliosProxy.Lib.Runs
import HeliosProxy.Text.Chars

/-!
# Migration readiness

`MirrorHandle::offer` puts a statement into the queue and counts it afterwards; the
worker takes the statements in turn, applies them and counts what came of it; `status`
loads the counters one after another and says that the target is ready when as many
statements were mirrored as enqueued and none was dropped or failed.  Any number of
`offer` and `status` calls run beside the worker here, step by step.

A statement that is mirrored before it is counted makes up for one that is counted and
still waits.  As long as the statements counted when `enqueued` is loaded are the first
ones sent, a target that is ready has every write offered before.
-/

namespace HeliosProxy.Mirror

open Text List Option

/-! ## The calls and the worker -/

structure MirrorMetrics where
  enqueued : Nat
  mirrored : Nat
  dropped : Nat
  errors : Nat
deriving DecidableEq

/-- `fetch_add(1)` on a `u64`. -/
def fetchAdd (n : Nat) : Nat := (n + 1) % 2 ^ 64

structure MigrationStatus where
  enabled : Bool
  target : Str
  writesOnly : Bool
  enqueued : Nat
  mirrored : Nat
  dropped : Nat
  errors : Nat
  lag : Nat
  migrationReady : Bool
deriving DecidableEq

/-- `status`, of the values it has loaded. -/
def status (target : Str) (writesOnly : Bool) (m : MirrorMetrics) : MigrationStatus where
  enabled := true
  target := target
  writesOnly := writesOnly
  enqueued := m.enqueued
  mirrored := m.mirrored
  dropped := m.dropped
  errors := m.errors
  lag := m.enqueued - m.mirrored
  migrationReady := decide (m.enqueued - m.mirrored = 0 ∧ m.dropped = 0 ∧ m.errors = 0)

/-- The handle, and the size of the queue `spawn` makes. -/
structure MirrorHandle where
  queueSize : Nat
  sampleRate : ℚ
  writesOnly : Bool
  target : Str

/-- `offer` returns at once: a read that is not mirrored, or one the sample leaves out. -/
def MirrorHandle.skips (h : MirrorHandle) (isWrite : Bool) (draw : ℚ) : Bool :=
  (h.writesOnly && !isWrite) || (decide (h.sampleRate < 1) && decide (h.sampleRate ≤ draw))

/-- How far an `offer` has come. -/
inductive Phase
  | started
  | sent
  | full
  | returned
deriving DecidableEq

structure Offer where
  sql : Str
  isWrite : Bool
  phase : Phase

/-- What the worker has in hand; a statement is named by its `offer`. -/
inductive Worker
  | idle
  | received (i : Nat)
  | applied (i : Nat)
  | failed (i : Nat)

/-- What a `status` call has loaded. -/
inductive Reading
  | begun
  | enqueued (enqueued : Nat)
  | mirrored (enqueued mirrored : Nat)
  | dropped (enqueued mirrored dropped : Nat)
  | returned (s : MigrationStatus)
deriving DecidableEq

/-- A `status` call, with the writes whose `offer` had returned when it began. -/
structure StatusCall where
  before : List Nat
  reading : Reading

/-- `sent` remembers every statement put into the queue, `applied` what the target has
of them; `connected` says that the worker has a client. -/
structure Mirroring where
  offers : List Offer
  queue : List Nat
  worker : Worker
  connected : Bool
  metrics : MirrorMetrics
  calls : List StatusCall
  sent : List Nat
  applied : List Nat

inductive MirrorStep
  | offer (sql : Str) (isWrite : Bool) (draw : ℚ)
  | trySend (i : Nat)
  | count (i : Nat)
  | recv
  | apply (connects succeeds : Bool)
  | settle
  | status
  | load (k : Nat)

namespace Mirroring

def init : Mirroring := ⟨[], [], .idle, false, ⟨0, 0, 0, 0⟩, [], [], []⟩

def phase (s : Mirroring) (i : Nat) : Option Phase := s.offers[i]?.map (·.phase)

def setPhase (s : Mirroring) (i : Nat) (p : Phase) : Mirroring :=
  { s with offers := s.offers.modify i fun o => { o with phase := p } }

/-- The `offer` calls of writes that have returned. -/
def returnedWrites (s : Mirroring) : List Nat :=
  (List.range s.offers.length).filter fun i =>
    s.offers[i]?.any fun o => o.isWrite && o.phase = .returned

/-- The next counter, in the order of `status`. -/
def load (h : MirrorHandle) (m : MirrorMetrics) : Reading → Option Reading
  | .begun => some (.enqueued m.enqueued)
  | .enqueued e => some (.mirrored e m.mirrored)
  | .mirrored e n => some (.dropped e n m.dropped)
  | .dropped e n d => some (.returned (Mirror.status h.target h.writesOnly ⟨e, n, d, m.errors⟩))
  | .returned _ => none

def step (h : MirrorHandle) (s : Mirroring) : MirrorStep → Option Mirroring
  | .offer sql isWrite draw =>
    let phase := if h.skips isWrite draw then .returned else .started
    some { s with offers := s.offers ++ [⟨sql, isWrite, phase⟩] }
  | .trySend i =>
    if s.phase i = some .started then
      if s.queue.length < max h.queueSize 1 then
        some { s.setPhase i .sent with queue := s.queue ++ [i], sent := s.sent ++ [i] }
      else some (s.setPhase i .full)
    else none
  | .count i =>
    if s.phase i = some .sent then
      some { s.setPhase i .returned with
        metrics := { s.metrics with enqueued := fetchAdd s.metrics.enqueued } }
    else if s.phase i = some .full then
      some { s.setPhase i .returned with
        metrics := { s.metrics with dropped := fetchAdd s.metrics.dropped } }
    else none
  | .recv =>
    match s.worker, s.queue with
    | .idle, i :: queue => some { s with worker := .received i, queue }
    | _, _ => none
  | .apply connects succeeds =>
    match s.worker with
    | .received i =>
      if !s.connected && !connects then some { s with worker := .failed i }
      else if succeeds then
        some { s with worker := .applied i, connected := true, applied := s.applied ++ [i] }
      else some { s with worker := .failed i, connected := false }
    | _ => none
  | .settle =>
    match s.worker with
    | .applied _ =>
      some { s with worker := .idle
                    metrics := { s.metrics with mirrored := fetchAdd s.metrics.mirrored } }
    | .failed _ =>
      some { s with worker := .idle
                    metrics := { s.metrics with errors := fetchAdd s.metrics.errors } }
    | _ => none
  | .status => some { s with calls := s.calls ++ [⟨s.returnedWrites, .begun⟩] }
  | .load k =>
    s.calls[k]?.bind fun c => (load h s.metrics c.reading).map fun reading =>
      { s with calls := s.calls.set k { c with reading } }

/-- Where a `status` call says that the target is ready, the target has every write
whose `offer` returned before the call began. -/
def Truthful (s : Mirroring) : Prop :=
  ∀ c ∈ s.calls, ∀ st, c.reading = .returned st → st.migrationReady = true →
    ∀ i ∈ c.before, i ∈ s.applied

def CountedFirst (s : Mirroring) : Prop :=
  s.sent.Pairwise fun i j => s.phase j = some .returned → s.phase i = some .returned

instance (s : Mirroring) : Decidable s.CountedFirst :=
  inferInstanceAs (Decidable (s.sent.Pairwise _))

/-- `enqueued` is loaded while the statements counted are the first ones sent, and no
counter is at its end. -/
def Orderly (s : Mirroring) : MirrorStep → Prop
  | .load k => ∀ c ∈ s.calls[k]?, c.reading = .begun → s.CountedFirst
  | .count _ => s.metrics.enqueued + 1 < 2 ^ 64 ∧ s.metrics.dropped + 1 < 2 ^ 64
  | .settle => s.metrics.errors + 1 < 2 ^ 64
  | _ => True

instance (s : Mirroring) (a : MirrorStep) : Decidable (s.Orderly a) := by
  cases a <;> unfold Mirroring.Orderly <;> infer_instance

inductive Effect (h : MirrorHandle) (s : Mirroring) : Mirroring → Prop
  | offered (o : Offer) (hp : o.phase = .started ∨ o.phase = .returned ∧ o.isWrite = false) :
      Effect h s { s with offers := s.offers ++ [o] }
  | sent (i : Nat) (hp : s.phase i = some .started) :
      Effect h s { s.setPhase i .sent with queue := s.queue ++ [i], sent := s.sent ++ [i] }
  | full (i : Nat) (hp : s.phase i = some .started) : Effect h s (s.setPhase i .full)
  | counted (i : Nat) (hp : s.phase i = some .sent) :
      Effect h s { s.setPhase i .returned with
        metrics := { s.metrics with enqueued := s.metrics.enqueued + 1 } }
  | dropped (i : Nat) (hp : s.phase i = some .full) :
      Effect h s { s.setPhase i .returned with
        metrics := { s.metrics with dropped := s.metrics.dropped + 1 } }
  | received (i : Nat) (queue : List Nat) (hi : s.worker = .idle) (hn : s.queue = i :: queue) :
      Effect h s { s with worker := .received i, queue }
  | applied (i : Nat) (hw : s.worker = .received i) :
      Effect h s { s with worker := .applied i, connected := true, applied := s.applied ++ [i] }
  | failed (i : Nat) (connected : Bool) (hw : s.worker = .received i) :
      Effect h s { s with worker := .failed i, connected }
  | mirrored (i : Nat) (hw : s.worker = .applied i) :
      Effect h s { s with worker := .idle
                          metrics := { s.metrics with mirrored := fetchAdd s.metrics.mirrored } }
  | errored (i : Nat) (hw : s.worker = .failed i) :
      Effect h s { s with worker := .idle
                          metrics := { s.metrics with errors := s.metrics.errors + 1 } }
  | status : Effect h s { s with calls := s.calls ++ [⟨s.returnedWrites, .begun⟩] }
  | loaded (k : Nat) (c : StatusCall) (reading : Reading) (hc : s.calls[k]? = some c)
      (hl : load h s.metrics c.reading = some reading) (hf : c.reading = .begun → s.CountedFirst) :
      Effect h s { s with calls := s.calls.set k { c with reading } }

variable {s s' : Mirroring}

theorem effect_of_step {h : MirrorHandle} {a : MirrorStep} (hr : 1 ≤ h.sampleRate)
    (ho : s.Orderly a) (hstep : step h s a = some s') : Effect h s s' := by
  cases a with
  | offer sql isWrite draw =>
    cases hstep
    refine .offered _ ?_
    have hrate : ¬ h.sampleRate < 1 := not_lt.mpr hr
    cases isWrite <;> cases h.writesOnly <;> simp [MirrorHandle.skips, hrate]
  | trySend i =>
    obtain ⟨hphase, hstep⟩ := ite_none_right_eq_some.mp hstep
    split at hstep
    · cases hstep
      exact .sent i hphase
    · cases hstep
      exact .full i hphase
  | count i =>
    obtain ⟨henqueued, hdropped⟩ := ho
    simp only [step] at hstep
    split at hstep
    next hphase =>
      cases hstep
      rw [show fetchAdd s.metrics.enqueued = _ from Nat.mod_eq_of_lt henqueued]
      exact .counted i hphase
    next =>
      obtain ⟨hphase, hstep⟩ := ite_none_right_eq_some.mp hstep
      cases hstep
      rw [show fetchAdd s.metrics.dropped = _ from Nat.mod_eq_of_lt hdropped]
      exact .dropped i hphase
  | recv =>
    simp only [step] at hstep
    split at hstep
    next i queue hworker hqueue =>
      cases hstep
      exact .received i queue hworker hqueue
    next => cases hstep
  | apply connects succeeds =>
    simp only [step] at hstep
    split at hstep
    next i hworker =>
      split at hstep
      · cases hstep
        exact .failed i _ hworker
      · split at hstep
        · cases hstep
          exact .applied i hworker
        · cases hstep
          exact .failed i _ hworker
    next => cases hstep
  | settle =>
    simp only [step] at hstep
    split at hstep
    next i hworker =>
      cases hstep
      exact .mirrored i hworker
    next i hworker =>
      cases hstep
      rw [show fetchAdd s.metrics.errors = _ from Nat.mod_eq_of_lt ho]
      exact .errored i hworker
    next => cases hstep
  | status =>
    cases hstep
    exact .status
  | load k =>
    obtain ⟨c, hc, hstep⟩ := bind_eq_some_iff.mp hstep
    obtain ⟨reading, hload, rfl⟩ := map_eq_some_iff.mp hstep
    exact .loaded k c reading hc hload (ho c hc)

/-! ## The offers -/

theorem phase_setPhase (s : Mirroring) (i j : Nat) (p : Phase) :
    (s.setPhase i p).phase j = if i = j then (s.phase j).map fun _ => p else s.phase j := by
  simp only [phase, setPhase, getElem?_modify]
  cases s.offers[j]? with
  | none => simp
  | some o =>
    by_cases hij : i = j
    · simp [hij]
    · simp [hij]

variable {i j : Nat} {p : Phase}

theorem phase_setPhase_of_ne (hne : j ≠ i) (p : Phase) :
    (s.setPhase i p).phase j = s.phase j := by
  rw [phase_setPhase, if_neg hne.symm]

theorem mem_returnedWrites :
    i ∈ s.returnedWrites ↔ ∃ o, s.offers[i]? = some o ∧ o.isWrite ∧ o.phase = .returned := by
  simp only [returnedWrites, mem_filter, mem_range]
  constructor
  · rintro ⟨hi, hany⟩
    rw [getElem?_eq_getElem hi] at hany
    exact ⟨_, getElem?_eq_getElem hi, by simpa using hany⟩
  · rintro ⟨o, ho, hwrite, hphase⟩
    exact ⟨(List.getElem?_eq_some_iff.mp ho).1, by simp [ho, hwrite, hphase]⟩

/-- The statements sent, and the counters `offer` keeps of them. -/
structure Offered (s : Mirroring) : Prop where
  nodup : s.sent.Nodup
  phases : ∀ i ∈ s.sent, s.phase i = some .sent ∨ s.phase i = some .returned
  waiting : ∀ i, s.phase i = some .sent → i ∈ s.sent
  counted : s.metrics.enqueued = s.sent.countP fun i => s.phase i = some .returned
  answered : ∀ i ∈ s.returnedWrites, i ∈ s.sent ∨ s.metrics.dropped ≠ 0

/-- Nothing of this changes but by an `offer`. -/
theorem Offered.frame (h : s.Offered) (ho : s'.offers = s.offers)
    (hs : s'.sent = s.sent) (he : s'.metrics.enqueued = s.metrics.enqueued)
    (hd : s'.metrics.dropped = s.metrics.dropped) : s'.Offered := by
  have hphase : s'.phase = s.phase := by simp only [funext_iff, phase, ho, implies_true]
  have hreturned : s'.returnedWrites = s.returnedWrites := by simp only [returnedWrites, ho]
  constructor
  · rw [hs]
    exact h.nodup
  · rw [hs, hphase]
    exact h.phases
  · rw [hs, hphase]
    exact h.waiting
  · rw [hs, hphase, he]
    exact h.counted
  · rw [hs, hreturned, hd]
    exact h.answered

theorem phase_append (o : Offer) :
    { s with offers := s.offers ++ [o] }.phase i = some p ↔
      s.phase i = some p ∨ i = s.offers.length ∧ o.phase = p := by
  simp only [phase, getElem?_append]
  split
  next hi =>
    refine ⟨.inl, ?_⟩
    rintro (h | ⟨rfl, -⟩)
    · exact h
    · exact absurd hi (lt_irrefl _)
  next hi =>
    rw [getElem?_eq_none (not_lt.mp hi)]
    by_cases hlast : i = s.offers.length
    · simp [hlast]
    · have hne : i - s.offers.length ≠ 0 := by omega
      simp [hlast, hne]

theorem mem_returnedWrites_setPhase
    (h : j ∈ (s.setPhase i p).returnedWrites) : i = j ∧ p = .returned ∨ j ∈ s.returnedWrites := by
  obtain ⟨o, ho, hwrite, hphase⟩ := mem_returnedWrites.mp h
  simp only [setPhase, getElem?_modify] at ho
  obtain ⟨o', ho', rfl⟩ := map_eq_some_iff.mp ho
  by_cases hij : i = j
  · rw [if_pos hij] at hphase
    exact .inl ⟨hij, hphase⟩
  · rw [if_neg hij] at hwrite hphase
    exact .inr (mem_returnedWrites.mpr ⟨o', ho', hwrite, hphase⟩)

namespace Offered

variable {s : Mirroring} {i : Nat} (h : s.Offered)
include h

theorem notMem (hphase : s.phase i = some p) (hsent : p ≠ .sent)
    (hreturned : p ≠ .returned) : i ∉ s.sent := by
  intro hi
  rcases h.phases i hi with h' | h'
  · exact hsent (Option.some.inj (hphase.symm.trans h'))
  · exact hreturned (Option.some.inj (hphase.symm.trans h'))

theorem offer (o : Offer) (hp : o.phase = .started ∨ o.phase = .returned ∧ o.isWrite = false) :
    { s with offers := s.offers ++ [o] }.Offered := by
  have hh : ∀ i ∈ s.sent, s.offers.length ≠ i := by
    rintro i hi rfl
    rcases h.phases _ hi with hphase | hphase <;> simp [Mirroring.phase] at hphase
  have hkeeps : ∀ i ∈ s.sent, ∀ p,
      ({ s with offers := s.offers ++ [o] }.phase i = some p ↔ s.phase i = some p) := by
    intro i hi p
    rw [phase_append]
    exact or_iff_left fun hnew => hh i hi hnew.1.symm
  constructor
  · exact h.nodup
  · intro i hi
    rw [hkeeps i hi, hkeeps i hi]
    exact h.phases i hi
  · intro i hi
    rcases (phase_append o).mp hi with hi | ⟨-, hsent⟩
    · exact h.waiting i hi
    · rw [hsent] at hp
      simp at hp
  · refine h.counted.trans (countP_congr fun i hi => ?_)
    simp only [hkeeps i hi]
  · intro i hi
    obtain ⟨o', ho', hwrite, hreturned⟩ := mem_returnedWrites.mp hi
    rcases Nat.lt_or_ge i s.offers.length with hlt | hge
    · rw [getElem?_append_left hlt] at ho'
      exact h.answered i (mem_returnedWrites.mpr ⟨o', ho', hwrite, hreturned⟩)
    · -- the new offer is not of a write that has returned
      rw [getElem?_append_right hge, getElem?_singleton] at ho'
      obtain ⟨-, ⟨⟩⟩ := ite_none_right_eq_some.mp ho'
      rw [hwrite, hreturned] at hp
      simp at hp

theorem setPhase {d : Nat} (hi : i ∉ s.sent) (hp : p ≠ .sent)
    (hanswered : p = .returned → d ≠ 0) (hd : s.metrics.dropped ≠ 0 → d ≠ 0) :
    { s.setPhase i p with metrics := { s.metrics with dropped := d } }.Offered := by
  have hkeeps : ∀ j ∈ s.sent, (s.setPhase i p).phase j = s.phase j := fun j hj =>
    phase_setPhase_of_ne (ne_of_mem_of_not_mem hj hi) p
  constructor
  · exact h.nodup
  · intro j hj
    exact hkeeps j hj ▸ h.phases j hj
  · intro j hj
    replace hj : (s.setPhase i p).phase j = some .sent := hj
    rw [phase_setPhase] at hj
    split at hj
    · obtain ⟨-, -, hp'⟩ := map_eq_some_iff.mp hj
      exact absurd hp' hp
    · exact h.waiting j hj
  · refine h.counted.trans (countP_congr fun j hj => ?_)
    exact iff_of_eq (congrArg (fun x => decide (x = some Phase.returned) = true) (hkeeps j hj).symm)
  · intro j hj
    rcases mem_returnedWrites_setPhase hj with ⟨-, hreturned⟩ | hj
    · exact .inr (hanswered hreturned)
    · exact (h.answered j hj).imp id hd

theorem send (hi : s.phase i = some .started) :
    { s.setPhase i .sent with queue := s.queue ++ [i], sent := s.sent ++ [i] }.Offered := by
  have hnew := h.notMem hi (by decide) (by decide)
  have hkeeps : ∀ j ∈ s.sent, (s.setPhase i .sent).phase j = s.phase j := fun j hj =>
    phase_setPhase_of_ne (ne_of_mem_of_not_mem hj hnew) .sent
  have hsent : (s.setPhase i .sent).phase i = some .sent := by simp [phase_setPhase, hi]
  constructor
  · exact nodup_append.mpr ⟨h.nodup, by simp, by
      rintro j hj k hk rfl
      rw [mem_singleton.mp hk] at hj
      exact hnew hj⟩
  · intro j hj
    rcases mem_append.mp hj with hj | hj
    · exact hkeeps j hj ▸ h.phases j hj
    · rw [mem_singleton.mp hj]
      exact .inl hsent
  · intro j hj
    replace hj : (s.setPhase i .sent).phase j = some .sent := hj
    rw [phase_setPhase] at hj
    split at hj
    next hij => exact mem_append_right _ (mem_singleton.mpr hij.symm)
    next => exact mem_append_left _ (h.waiting j hj)
  · show s.metrics.enqueued = (s.sent ++ [i]).countP _
    rw [countP_append, countP_singleton, h.counted]
    refine Eq.symm (congrArg₂ (· + ·) (countP_congr fun j hj => ?_) (if_neg ?_))
    · exact iff_of_eq (congrArg (fun x => decide (x = some Phase.returned) = true) (hkeeps j hj))
    · rw [decide_eq_true_eq]
      exact fun hreturned => by cases hsent.symm.trans hreturned
  · intro j hj
    rcases mem_returnedWrites_setPhase hj with ⟨-, ⟨⟩⟩ | hj
    exact (h.answered j hj).imp (mem_append_left _) id

theorem count (hi : s.phase i = some .sent) :
    { s.setPhase i .returned with
      metrics := { s.metrics with enqueued := s.metrics.enqueued + 1 } }.Offered := by
  have hmem := h.waiting i hi
  have hreturned : (s.setPhase i .returned).phase i = some .returned := by simp [phase_setPhase, hi]
  have hkeeps : ∀ j, j ≠ i → (s.setPhase i .returned).phase j = s.phase j := fun j hj =>
    phase_setPhase_of_ne hj .returned
  constructor
  · exact h.nodup
  · intro j hj
    by_cases hji : j = i
    · rw [hji]
      exact .inr hreturned
    · exact hkeeps j hji ▸ h.phases j hj
  · intro j hj
    replace hj : (s.setPhase i .returned).phase j = some .sent := hj
    by_cases hji : j = i
    · rw [hji]
      exact hmem
    · rw [hkeeps j hji] at hj
      exact h.waiting j hj
  · show s.metrics.enqueued + 1 = _
    rw [h.counted]
    refine (Lists.countP_eq_add_one h.nodup hmem (by simp [hi]) (decide_eq_true hreturned) ?_).symm
    intro j _ hji
    exact congrArg (fun x => decide (x = some Phase.returned)) (hkeeps j hji)
  · intro j hj
    rcases mem_returnedWrites_setPhase hj with ⟨rfl, -⟩ | hj
    · exact .inl hmem
    · exact h.answered j hj

theorem effect {hd : MirrorHandle} (heff : Effect hd s s') : s'.Offered := by
  cases heff with
  | offered o hp => exact h.offer o hp
  | sent i hp => exact h.send hp
  | full i hp =>
    exact h.setPhase (h.notMem hp (by decide) (by decide)) (by decide) nofun id
  | counted i hp => exact h.count hp
  | dropped i hp =>
    exact h.setPhase (h.notMem hp (by decide) (by decide)) (by decide) (fun _ => Nat.succ_ne_zero _)
      (fun _ => Nat.succ_ne_zero _)
  | received | applied | failed | mirrored | errored | status | loaded =>
    exact h.frame rfl rfl rfl rfl

end Offered

end Mirroring

/-! ## The worker -/

def Worker.unapplied : Worker → List Nat
  | .received i | .failed i => [i]
  | .idle | .applied _ => []

def Worker.uncounted : Worker → Nat
  | .applied _ => 1
  | .idle | .received _ | .failed _ => 0

namespace Mirroring

structure InLine (s : Mirroring) : Prop where
  line : s.metrics.errors = 0 → s.sent = s.applied ++ s.worker.unapplied ++ s.queue
  mirrored : s.metrics.mirrored + s.worker.uncounted ≤ s.applied.length

variable {s s' : Mirroring} {h hd : MirrorHandle} {c : StatusCall} {before : List Nat}

theorem InLine.effect (hl : s.InLine) (heff : Effect h s s') :
    s'.InLine := by
  obtain ⟨hline, hmirrored⟩ := hl
  cases heff with
  | sent i hp =>
    refine ⟨fun he => ?_, hmirrored⟩
    show s.sent ++ [i] = s.applied ++ s.worker.unapplied ++ (s.queue ++ [i])
    rw [hline he, append_assoc _ s.queue]
  | received i queue hi hn =>
    rw [hi] at hline hmirrored
    refine ⟨fun he => ?_, hmirrored⟩
    rw [hline he, hn]
    simp [Worker.unapplied]
  | applied i hw =>
    rw [hw] at hline hmirrored
    refine ⟨fun he => ?_, ?_⟩
    · rw [hline he]
      simp [Worker.unapplied]
    · simpa [Worker.uncounted] using hmirrored
  | failed i connected hw =>
    rw [hw] at hline hmirrored
    exact ⟨hline, hmirrored⟩
  | mirrored i hw =>
    rw [hw] at hline hmirrored
    exact ⟨hline, (Nat.mod_le _ _).trans hmirrored⟩
  | errored i hw =>
    rw [hw] at hmirrored
    exact ⟨fun he => absurd he (Nat.succ_ne_zero _), hmirrored⟩
  | offered | full | counted | dropped | status | loaded => exact ⟨hline, hmirrored⟩

structure Grows (s s' : Mirroring) : Prop where
  sent : s.sent <+: s'.sent
  applied : s.applied ⊆ s'.applied
  returned : ∀ i, s.phase i = some .returned → s'.phase i = some .returned
  dropped : s.metrics.dropped ≠ 0 → s'.metrics.dropped ≠ 0
  errors : s.metrics.errors ≠ 0 → s'.metrics.errors ≠ 0

theorem returned_setPhase {i j : Nat} {p q : Phase} (hi : s.phase i = some q)
    (hq : q ≠ .returned) (hj : s.phase j = some .returned) :
    (s.setPhase i p).phase j = some .returned := by
  rw [phase_setPhase, if_neg]
  · exact hj
  · rintro rfl
    exact hq (Option.some.inj (hi.symm.trans hj))

theorem Effect.grows (heff : Effect h s s') : s.Grows s' := by
  have hself := List.Subset.refl s.applied
  cases heff with
  | offered o hp =>
    exact ⟨prefix_rfl, hself, fun i hi => (phase_append o).mpr (.inl hi), id, id⟩
  | sent i hp =>
    exact ⟨prefix_append _ _, hself, fun _ => returned_setPhase hp (by decide), id, id⟩
  | full i hp => exact ⟨prefix_rfl, hself, fun _ => returned_setPhase hp (by decide), id, id⟩
  | counted i hp =>
    exact ⟨prefix_rfl, hself, fun _ => returned_setPhase hp (by decide), id, id⟩
  | dropped i hp =>
    exact ⟨prefix_rfl, hself, fun _ => returned_setPhase hp (by decide),
      fun _ => Nat.succ_ne_zero _, id⟩
  | applied i hw =>
    exact ⟨prefix_rfl, subset_append_left _ _, fun _ => id, id, id⟩
  | errored i hw => exact ⟨prefix_rfl, hself, fun _ => id, id, fun _ => Nat.succ_ne_zero _⟩
  | received | failed | mirrored | status | loaded =>
    exact ⟨prefix_rfl, hself, fun _ => id, id, id⟩

/-! ## The readings -/

/-- The target has the first `n` statements. -/
def Reached (s : Mirroring) (n : Nat) : Prop := ∃ l, l <+: s.sent ∧ n ≤ l.length ∧ l ⊆ s.applied

theorem InLine.reached (h : s.InLine) (he : s.metrics.errors = 0) :
    s.Reached s.metrics.mirrored := by
  refine ⟨s.applied, ?_, (Nat.le_add_right _ _).trans h.mirrored, List.Subset.refl _⟩
  rw [h.line he, append_assoc]
  exact prefix_append _ _

def Sound (s : Mirroring) (c : StatusCall) : Prop :=
  match c.reading with
  | .begun => (∀ i ∈ c.before, i ∈ s.sent ∧ s.phase i = some .returned) ∨ s.metrics.dropped ≠ 0
  | .enqueued e => c.before ⊆ s.sent.take e ∨ s.metrics.dropped ≠ 0
  | .mirrored e m =>
    (c.before ⊆ s.sent.take e ∨ s.metrics.dropped ≠ 0) ∧ (s.Reached m ∨ s.metrics.errors ≠ 0)
  | .dropped e m d =>
    (c.before ⊆ s.sent.take e ∨ d ≠ 0) ∧ (s.Reached m ∨ s.metrics.errors ≠ 0)
  | .returned st => st.migrationReady = true → c.before ⊆ s.applied

theorem Sound.grows (h : s.Sound c) (hg : s.Grows s') :
    s'.Sound c := by
  have htake : ∀ {e}, c.before ⊆ s.sent.take e → c.before ⊆ s'.sent.take e := fun {e} hc =>
    List.Subset.trans hc (hg.sent.take e).subset
  have hreached : ∀ {m}, s.Reached m → s'.Reached m := by
    rintro m ⟨l, hl, hm, happlied⟩
    exact ⟨l, hl.trans hg.sent, hm, List.Subset.trans happlied hg.applied⟩
  obtain ⟨before, reading⟩ := c
  cases reading with
  | begun =>
    refine Or.imp (fun hb i hi => ?_) hg.dropped h
    exact ⟨hg.sent.subset (hb i hi).1, hg.returned i (hb i hi).2⟩
  | enqueued e => exact Or.imp htake hg.dropped h
  | mirrored e m => exact ⟨h.1.imp htake hg.dropped, h.2.imp hreached hg.errors⟩
  | dropped e m d => exact ⟨h.1.imp htake id, h.2.imp hreached hg.errors⟩
  | returned st => exact fun hready => List.Subset.trans (h hready) hg.applied

/-- A `status` call that begins. -/
theorem Offered.sound_begun (h : s.Offered) : s.Sound ⟨s.returnedWrites, .begun⟩ := by
  by_cases hd : s.metrics.dropped = 0
  · refine .inl fun i hi => ⟨(h.answered i hi).resolve_right (not_not_intro hd), ?_⟩
    obtain ⟨o, ho, -, hphase⟩ := mem_returnedWrites.mp hi
    rw [phase, ho, map_some, hphase]
  · exact .inr hd

/-- The statements counted are the first ones sent: `enqueued` says how many. -/
theorem Offered.before_subset_take (h : s.Offered) (hf : s.CountedFirst)
    (hbefore : ∀ i ∈ before, i ∈ s.sent ∧ s.phase i = some .returned) :
    before ⊆ s.sent.take s.metrics.enqueued := by
  intro i hi
  have hfilter : s.sent.filter (fun i => s.phase i = some .returned) =
      s.sent.take s.metrics.enqueued := by
    rw [h.counted, countP_eq_length_filter]
    exact Lists.filter_eq_take (hf.imp fun hij => by simpa using hij)
  rw [← hfilter]
  exact mem_filter.mpr ⟨(hbefore i hi).1, decide_eq_true (hbefore i hi).2⟩

theorem subset_applied_of_ready {e m : Nat}
    (hbefore : before ⊆ s.sent.take e) (hreached : s.Reached m) (hem : e ≤ m) :
    before ⊆ s.applied := by
  obtain ⟨l, hl, hm, happlied⟩ := hreached
  rw [prefix_iff_eq_take.mp hl] at hm happlied
  refine List.Subset.trans hbefore (List.Subset.trans ?_ happlied)
  exact (take_prefix_take_left (hem.trans (hm.trans (length_take_le _ _)))).subset

theorem Sound.load {reading : Reading}
    (h : s.Sound c) (ho : s.Offered) (hl : s.InLine)
    (hlo : Mirroring.load hd s.metrics c.reading = some reading)
    (hf : c.reading = .begun → s.CountedFirst) : s.Sound { c with reading } := by
  obtain ⟨before, r⟩ := c
  cases r with
  | begun =>
    cases hlo
    exact Or.imp (ho.before_subset_take (hf rfl)) id h
  | enqueued e =>
    cases hlo
    refine ⟨h, ?_⟩
    by_cases he : s.metrics.errors = 0
    · exact .inl (hl.reached he)
    · exact .inr he
  | mirrored e m =>
    cases hlo
    exact h
  | dropped e m d =>
    cases hlo
    intro hready
    obtain ⟨hlag, hdropped, herrors⟩ := of_decide_eq_true hready
    exact subset_applied_of_ready (h.1.resolve_right (not_not_intro hdropped))
      (h.2.resolve_right (not_not_intro herrors)) (Nat.sub_eq_zero_iff_le.mp hlag)
  | returned st => cases hlo

/-! ## Runs -/

structure Safe (s : Mirroring) : Prop where
  offered : s.Offered
  inLine : s.InLine
  calls : ∀ c ∈ s.calls, s.Sound c

theorem Safe.effect (h : s.Safe) (heff : Effect hd s s') :
    s'.Safe := by
  have hsound : ∀ c, s.Sound c → s'.Sound c := fun c hc => hc.grows heff.grows
  refine ⟨h.offered.effect heff, h.inLine.effect heff, ?_⟩
  cases heff with
  | status =>
    intro c hc
    rcases mem_append.mp hc with hc | hc
    · exact hsound c (h.calls c hc)
    · rw [mem_singleton.mp hc]
      exact hsound _ h.offered.sound_begun
  | loaded k c reading hca hl hf =>
    intro c' hc'
    have hc := h.calls c (mem_of_getElem? hca)
    rcases mem_or_eq_of_mem_set hc' with hc' | rfl
    · exact hsound c' (h.calls c' hc')
    · exact hsound _ (hc.load h.offered h.inLine hl hf)
  | offered | sent | full | counted | dropped | received | applied | failed | mirrored | errored =>
    exact fun c hc => hsound c (h.calls c hc)

theorem safe_init : init.Safe :=
  ⟨⟨nodup_nil, by simp [init], by simp [init, phase], rfl, by simp [init, returnedWrites]⟩,
    ⟨fun _ => rfl, le_refl 0⟩, by simp [init]⟩

end Mirroring

/-- In an orderly run a target said to be ready has every write offered before. -/
theorem ready_has_every_write (h : MirrorHandle) (hrate : 1 ≤ h.sampleRate)
    (steps : List MirrorStep)
    {s : Mirroring} (ho : Runs.Along (Mirroring.step h) Mirroring.Orderly .init steps)
    (hran : Runs.run (Mirroring.step h) .init steps = some s) : s.Truthful := by
  have hstep : ∀ s a s', Mirroring.Safe s → s.Orderly a →
    Mirroring.step h s a = some s' → s'.Safe :=
    fun s a s' hsafe horderly hstep => hsafe.effect (Mirroring.effect_of_step hrate horderly hstep)
  have hsafe := Runs.run_invariant_along hstep Mirroring.safe_init ho hran
  intro c hc st hst hready
  have hsound := hsafe.calls c hc
  rw [Mirroring.Sound, hst] at hsound
  exact fun i hi => hsound hready hi

def fullMirror : MirrorHandle := ⟨10, 1, true, "mirror:5432"⟩

def mirrorOne : List MirrorStep := [.recv, .apply true true, .settle]

def readStatus : List MirrorStep := [.status, .load 0, .load 0, .load 0, .load 0]

def twoOffers : List MirrorStep :=
  [.offer "INSERT INTO t VALUES (1)" true 0, .offer "INSERT INTO t VALUES (2)" true 0,
    .trySend 0, .trySend 1]

theorem ready_has_every_write_two :
    ∃ s, Runs.run (Mirroring.step fullMirror) .init
        (twoOffers ++ [.count 0, .count 1] ++ mirrorOne ++ mirrorOne ++ readStatus) = some s ∧
      s.calls.map (fun c => (c.before, c.reading)) =
        [([0, 1], .returned ⟨true, "mirror:5432", true, 2, 2, 0, 0, 0, true⟩)] ∧ s.Truthful :=
  ⟨_, rfl, by decide, ready_has_every_write fullMirror (le_refl 1)
    (twoOffers ++ [.count 0, .count 1] ++ mirrorOne ++ mirrorOne ++ readStatus) (by decide) rfl⟩

/-- The first statement is mirrored before it is counted, the second one is counted. -/
theorem not_ready_has_every_write :
    ∃ s, Runs.run (Mirroring.step fullMirror) .init
        (twoOffers ++ [.count 1] ++ mirrorOne ++ readStatus) = some s ∧
      s.calls.map (fun c => (c.before, c.reading)) =
        [([1], .returned ⟨true, "mirror:5432", true, 1, 1, 0, 0, 0, true⟩)] ∧
      s.applied = [0] ∧ ¬ s.Truthful := by
  refine ⟨_, rfl, by decide, rfl, fun htrue => ?_⟩
  have happlied := htrue _ (.head _) _ rfl rfl 1 (.head _)
  revert happlied
  decide

end HeliosProxy.Mirror
