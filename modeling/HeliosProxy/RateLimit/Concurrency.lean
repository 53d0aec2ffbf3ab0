import HeliosProxy.Lib.Runs

/-!
# The concurrency limiter

A slot is taken by a compare-exchange on the number of active operations.  A call that
finds none free puts the sender of a channel into a queue and waits; a guard that is
dropped lowers the number first, then takes the first sender out of the queue and sends.
The call that is woken raises the number without looking at it.

Between the two a newcomer may find the slot free and take it, and both count.  A call
that has given up leaves its sender in the queue and takes a wake-up with it.  A slot that
is freed between a failed attempt and the queueing wakes nobody.  Where none of these
happens the limiter is a semaphore: the slots that are held and those on their way to a
waiter are never more than the limit, and as many as that while anybody waits.

Every call of the limiter is a party of its own, which acts once.
-/

namespace HeliosProxy.RateLimit

open Parties Function

inductive Acquire
  | tryAcquire
  | acquire
  | acquireTimeout
deriving DecidableEq

instance : Fintype Acquire := ⟨{.tryAcquire, .acquire, .acquireTimeout}, fun how => by cases how <;> decide⟩

inductive Phase (ι : Type)
  | notCalled
  | trying (how : Acquire)
  /-- `current` was read and is below the limit. -/
  | loaded (how : Acquire) (current : Nat)
  | checkingQueue
  | enqueuing (how : Acquire)
  /-- In `rx.await`; the message may have been sent. -/
  | waiting (how : Acquire) (sent : Bool)
  /-- Woken, in front of the `fetch_add`. -/
  | counting
  | holding
  /-- The guard is dropped and the number lowered. -/
  | popping
  | sending (waiter : ι)
  | done
deriving DecidableEq

inductive Action
  | call (how : Acquire)
  | load
  /-- `compare_exchange_weak`, which may fail for no reason. -/
  | compareExchange (spurious : Bool)
  | checkQueue
  | enqueue
  | receive
  | timeout
  | count
  | drop
  | pop
  | send
deriving DecidableEq

/-- `ConcurrencyLimiter` and the calls on it. -/
structure Limiter (ι : Type) where
  active : Nat
  waiters : List ι
  phase : ι → Phase ι

/-- A failed `try_acquire`. -/
def Acquire.failed {ι : Type} : Acquire → Phase ι
  | .tryAcquire => .done
  | .acquire => .enqueuing .acquire
  | .acquireTimeout => .checkingQueue

namespace Limiter

variable {ι : Type} [DecidableEq ι]

def new : Limiter ι := ⟨0, [], fun _ => .notCalled⟩

def goTo (s : Limiter ι) (t : ι) (p : Phase ι) : Limiter ι := { s with phase := update s.phase t p }

/-- `waiter.send(())`: nothing if the receiver is gone. -/
def deliver (s : Limiter ι) (w : ι) : Limiter ι :=
  match s.phase w with
  | .waiting how false => s.goTo w (.waiting how true)
  | _ => s

def step (max maxQueueSize : Nat) (s : Limiter ι) : ι × Action → Option (Limiter ι)
  | (t, a) =>
    match s.phase t, a with
    | .notCalled, .call how => some (s.goTo t (.trying how))
    | .trying how, .load =>
      some (s.goTo t (if max ≤ s.active then how.failed else .loaded how s.active))
    | .loaded how current, .compareExchange spurious =>
      if spurious = false ∧ s.active = current then some { s.goTo t .holding with active := current + 1 }
      else some (s.goTo t (.trying how))
    | .checkingQueue, .checkQueue =>
      some (s.goTo t (if 0 < maxQueueSize ∧ maxQueueSize ≤ s.waiters.length then .done
        else .enqueuing .acquireTimeout))
    | .enqueuing how, .enqueue => some { s.goTo t (.waiting how false) with waiters := s.waiters ++ [t] }
    | .waiting _ true, .receive => some (s.goTo t .counting)
    | .waiting .acquireTimeout _, .timeout => some (s.goTo t .done)
    | .counting, .count => some { s.goTo t .holding with active := s.active + 1 }
    | .holding, .drop => some { s.goTo t .popping with active := s.active - 1 }
    | .popping, .pop =>
      match s.waiters with
      | [] => some (s.goTo t .done)
      | w :: rest => some { s.goTo t (.sending w) with waiters := rest }
    | .sending w, .send => some ((s.deliver w).goTo t .done)
    | _, _ => none

def Quiescent (max maxQueueSize : Nat) (s : Limiter ι) : Prop :=
  ∀ t a, (step max maxQueueSize s (t, a)).isSome → (∃ how, a = .call how) ∨ a = .drop ∨ a = .timeout

end Limiter

def Phase.holds {ι : Type} : Phase ι → Nat
  | .holding => 1
  | _ => 0

def Phase.hands {ι : Type} : Phase ι → Nat
  | .popping | .sending _ | .waiting _ true | .counting => 1
  | _ => 0

def Phase.quiet {ι : Type} : Phase ι → Bool
  | .notCalled | .trying _ | .loaded _ _ | .checkingQueue | .enqueuing _ | .done => true
  | _ => false

section Semaphore

variable {ι : Type} [Fintype ι] [DecidableEq ι]

def Live (phase : ι → Phase ι) (t : ι) : Prop := ∃ how, phase t = .waiting how false

def handed (phase : ι → Phase ι) : Nat := total Phase.hands phase

/-- The slots that are held or on their way are at most `max`, and as many while a sender
of a waiting call is queued. -/
structure Semaphore (max active : Nat) (waiters : List ι) (phase : ι → Phase ι) : Prop where
  counted : active = total Phase.holds phase
  bounded : active + handed phase ≤ max
  served : (∃ w ∈ waiters, Live phase w) → active + handed phase = max
  queued : ∀ w, Live phase w → w ∈ waiters ∨ ∃ t, phase t = .sending w

variable {max active : Nat} {waiters : List ι} {phase : ι → Phase ι} {p : Phase ι} {t w : ι}
  {how : Acquire}

omit [Fintype ι] in
theorem Live.of_update (hd : ∀ how, p ≠ .waiting how false)
    (hl : Live (update phase t p) w) : w ≠ t ∧ Live phase w := by
  obtain ⟨how, hw⟩ := hl
  by_cases hs : w = t
  · subst hs
    rw [update_self] at hw
    exact absurd hw (hd how)
  · rw [update_of_ne hs] at hw
    exact ⟨hs, how, hw⟩

omit [Fintype ι] in
theorem sending_update {v : ι} (ho : phase t ≠ .sending w) (hs : phase v = .sending w) :
    update phase t p v = .sending w := by
  have hd : v ≠ t := by
    rintro rfl
    exact ho hs
  rw [update_of_ne hd, hs]

namespace Semaphore

section

variable (h : Semaphore max active waiters phase)
include h

/-- A call that sends nothing goes on and does not wait; what is held and on its way stays
the same in sum. -/
theorem move {active' : Nat}
    (hd : ∀ how, p ≠ .waiting how false) (hm : ∀ w, phase t ≠ .sending w)
    (hc : active' + (phase t).holds = active + p.holds)
    (hsa : p.holds + p.hands = (phase t).holds + (phase t).hands) :
    Semaphore max active' waiters (update phase t p) := by
  have hh := total_update Phase.holds phase t p
  have hha := total_update Phase.hands phase t p
  have hbe := h.counted
  have hb := h.bounded
  have hs : active' + handed (update phase t p) = active + handed phase := by
    unfold handed
    omega
  refine ⟨by omega, hs ▸ hb, fun ⟨w, hme, hl⟩ => ?_, fun w hl => ?_⟩
  · rw [hs]
    exact h.served ⟨w, hme, (hl.of_update hd).2⟩
  · exact (h.queued w (hl.of_update hd).2).imp_right fun ⟨v, hse⟩ => ⟨v, sending_update (hm w) hse⟩

theorem quiet (hb : (phase t).quiet)
    (ha : p.quiet) : Semaphore max active waiters (update phase t p) := by
  refine h.move ?_ ?_ ?_ ?_
  all_goals
    revert hb ha
    cases phase t <;> cases p <;> simp [Phase.quiet, Phase.holds, Phase.hands]

theorem take (hq : (phase t).quiet) (hf : active + handed phase < max) :
    Semaphore max (active + 1) waiters (update phase t .holding) := by
  have hw : (phase t).holds = 0 ∧ (phase t).hands = 0 := by
    revert hq
    cases phase t <;> simp [Phase.quiet, Phase.holds, Phase.hands]
  have hh := total_update Phase.holds phase t .holding
  have hha := total_update Phase.hands phase t .holding
  have hb := h.counted
  rw [show (Phase.holding : Phase ι).holds = 1 from rfl] at hh
  rw [show (Phase.holding : Phase ι).hands = 0 from rfl] at hha
  refine ⟨by omega, by unfold handed at *; omega, fun ⟨w, hm, hl⟩ => ?_, fun w hl => ?_⟩
  · have hfu := h.served ⟨w, hm, (hl.of_update (by rintro _ ⟨⟩)).2⟩
    omega
  · refine (h.queued w (hl.of_update (by rintro _ ⟨⟩)).2).imp_right fun ⟨v, hs⟩ => ⟨v, sending_update ?_ hs⟩
    intro hs
    rw [hs] at hq
    cases hq

theorem enqueue (ha : phase t = .enqueuing how) (hf : max ≤ active + handed phase) :
    Semaphore max active (waiters ++ [t]) (update phase t (.waiting how false)) := by
  have hh := total_update Phase.holds phase t (.waiting how false)
  have hha := total_update Phase.hands phase t (.waiting how false)
  have hbe := h.counted
  have hb := h.bounded
  simp only [ha, Phase.holds, Phase.hands] at hh hha
  unfold handed at hf hb
  refine ⟨by omega, by unfold handed; omega, fun _ => by unfold handed; omega, fun w hl => ?_⟩
  by_cases hs : w = t
  · exact .inl (by simp [hs])
  · have hw : Live phase w := by
      obtain ⟨how, hw⟩ := hl
      exact ⟨how, by rwa [update_of_ne hs] at hw⟩
    refine (h.queued w hw).imp (List.mem_append_left _) fun ⟨v, hse⟩ => ⟨v, sending_update ?_ hse⟩
    rw [ha]
    rintro ⟨⟩

theorem leave (hh : (phase t).hands = 1)
    (hi : ∀ w ∈ waiters, ¬ Live phase w) (ht : ∀ w, phase t = .sending w → ¬ Live phase w) :
    Semaphore max active waiters (update phase t .done) := by
  have hwe : (phase t).holds = 0 := by
    revert hh
    cases phase t <;> simp [Phase.holds, Phase.hands]
  have hhe := total_update Phase.holds phase t .done
  have hha := total_update Phase.hands phase t .done
  have hbe := h.counted
  have hb := h.bounded
  rw [show (Phase.done : Phase ι).holds = 0 from rfl] at hhe
  rw [show (Phase.done : Phase ι).hands = 0 from rfl] at hha
  unfold handed at hb
  refine ⟨by omega, by unfold handed; omega, fun ⟨w, hm, hl⟩ => ?_, fun w hl => ?_⟩
  · exact absurd (hl.of_update (by rintro _ ⟨⟩)).2 (hi w hm)
  · have hw := (hl.of_update (by rintro _ ⟨⟩)).2
    exact (h.queued w hw).imp_right fun ⟨v, hs⟩ => ⟨v, sending_update (fun hs => ht w hs hw) hs⟩

theorem popSome {rest : List ι} (hp : phase t = .popping)
    (hq : waiters = w :: rest) : Semaphore max active rest (update phase t (.sending w)) := by
  have hmo := h.move (p := .sending w) (by rintro _ ⟨⟩) (by rw [hp]; rintro _ ⟨⟩)
    (by rw [hp]; rfl) (by rw [hp]; rfl)
  subst hq
  refine ⟨hmo.counted, hmo.bounded, fun ⟨v, hm, hl⟩ => hmo.served ⟨v, List.mem_cons_of_mem _ hm, hl⟩,
    fun v hl => ?_⟩
  rcases hmo.queued v hl with hm | hs
  · rcases List.mem_cons.mp hm with rfl | hm
    · exact .inr ⟨t, update_self ..⟩
    · exact .inl hm
  · exact .inr hs

theorem wake (hs : phase t = .sending w) (hw : phase w = .waiting how false) :
    Semaphore max active waiters (update (update phase w (.waiting how true)) t .done) := by
  have hd : t ≠ w := by
    rintro rfl
    rw [hs] at hw
    cases hw
  have hh := total_update Phase.holds phase w (.waiting how true)
  have hha := total_update Phase.hands phase w (.waiting how true)
  have held' := total_update Phase.holds (update phase w (.waiting how true)) t .done
  have hand' := total_update Phase.hands (update phase w (.waiting how true)) t .done
  have hb := h.counted
  rw [update_of_ne hd, hs] at held' hand'
  simp only [hw, Phase.holds, Phase.hands] at hh hha held' hand'
  have hsu : active + handed (update (update phase w (.waiting how true)) t .done) =
      active + handed phase := by
    unfold handed
    omega
  have hst {v : ι} (hl : Live (update (update phase w (.waiting how true)) t .done) v) :
      v ≠ w ∧ Live phase v := (hl.of_update (by rintro _ ⟨⟩)).2.of_update (by rintro _ ⟨⟩)
  refine ⟨by omega, hsu ▸ h.bounded, fun ⟨v, hm, hl⟩ => hsu ▸ h.served ⟨v, hm, (hst hl).2⟩, fun v hl => ?_⟩
  refine (h.queued v (hst hl).2).imp_right fun ⟨x, hs'⟩ => ⟨x, sending_update ?_ (sending_update ?_ hs')⟩
  · rw [update_of_ne hd, hs]
    rintro ⟨⟩
    exact (hst hl).1 rfl
  · rw [hw]
    rintro ⟨⟩

end

end Semaphore

/-! ## Runs -/

namespace Limiter

variable {maxQueueSize : Nat} {s s' : Limiter ι}

/-- No newcomer takes a slot that is on its way to a waiter, no call queues past a free
slot, and no wake-up is lost while another call is queued. -/
def Orderly (max : Nat) (s : Limiter ι) : ι × Action → Prop
  | (t, .compareExchange spurious) =>
    spurious = false → (∃ how, s.phase t = .loaded how s.active) → 0 < handed s.phase →
      s.active + handed s.phase < max
  | (_, .enqueue) => max ≤ s.active + handed s.phase
  | (t, .timeout) => (∃ how, s.phase t = .waiting how true) → ∀ w ∈ s.waiters, ¬ Live s.phase w
  | (t, .send) => ∀ w, s.phase t = .sending w → ¬ Live s.phase w → ∀ v ∈ s.waiters, ¬ Live s.phase v
  | _ => True

instance (t : ι) (phase : ι → Phase ι) : Decidable (Live phase t) :=
  inferInstanceAs (Decidable (∃ how, phase t = .waiting how false))

instance (s : Limiter ι) (a : ι × Action) : Decidable (s.Orderly max a) := by
  obtain ⟨t, a⟩ := a
  cases a <;> unfold Limiter.Orderly <;> infer_instance

def IsSemaphore (max : Nat) (s : Limiter ι) : Prop := Semaphore max s.active s.waiters s.phase

/-- A value that was loaded passed the test against the limit. -/
def LoadedBelow (max : Nat) (s : Limiter ι) : Prop :=
  ∀ t how current, s.phase t = .loaded how current → current < max

omit [Fintype ι] in
theorem deliver_live {how : Acquire} (hw : s.phase w = .waiting how false) :
    s.deliver w = s.goTo w (.waiting how true) := by
  simp only [deliver, hw]

omit [Fintype ι] in
theorem deliver_dead (hd : ¬ Live s.phase w) : s.deliver w = s := by
  unfold deliver
  split
  · next how hw => exact absurd ⟨how, hw⟩ hd
  · rfl

omit [Fintype ι] in
theorem LoadedBelow.goTo (hb : s.LoadedBelow max)
    (hp : ∀ how current, p = .loaded how current → current < max) :
    (s.goTo t p).LoadedBelow max := by
  intro u how current hu
  change update s.phase t p u = .loaded how current at hu
  by_cases hs : u = t
  · rw [hs, update_self] at hu
    exact hp how current hu
  · rw [update_of_ne hs] at hu
    exact hb u how current hu

omit [Fintype ι] in
theorem LoadedBelow.deliver (hb : s.LoadedBelow max) (w : ι) : (s.deliver w).LoadedBelow max := by
  unfold Limiter.deliver
  split
  · exact hb.goTo (by rintro _ _ ⟨⟩)
  · exact hb

omit [Fintype ι] in
theorem LoadedBelow.step (hb : s.LoadedBelow max) {a : Action}
    (hs : step max maxQueueSize s (t, a) = some s') : s'.LoadedBelow max := by
  simp only [Limiter.step] at hs
  split at hs
  case h_2 tried _ =>
    cases hs
    refine hb.goTo fun how current hp => ?_
    split at hp
    · cases tried <;> cases hp
    · cases hp
      omega
  case h_3 =>
    split at hs <;> cases hs <;> exact hb.goTo (by rintro _ _ ⟨⟩)
  case h_4 =>
    cases hs
    refine hb.goTo fun how current hp => ?_
    split at hp <;> cases hp
  case h_10 =>
    split at hs <;> cases hs <;> exact hb.goTo (by rintro _ _ ⟨⟩)
  case h_11 w _ =>
    cases hs
    exact (hb.deliver w).goTo (by rintro _ _ ⟨⟩)
  case h_12 => cases hs
  all_goals
    cases hs
    exact hb.goTo (by rintro _ _ ⟨⟩)

theorem IsSemaphore.step (h : s.IsSemaphore max) (hb : s.LoadedBelow max) {a : Action}
    (ho : s.Orderly max (t, a))
    (hs : step max maxQueueSize s (t, a) = some s') : s'.IsSemaphore max := by
  simp only [Limiter.step] at hs
  split at hs
  case h_1 hh =>
    cases hs
    exact Semaphore.quiet h (by rw [hh]; rfl) rfl
  case h_2 how hh =>
    cases hs
    refine Semaphore.quiet h (by rw [hh]; rfl) ?_
    split
    · cases how <;> rfl
    · rfl
  case h_3 how current spurious hh =>
    split at hs
    · next ht =>
      cases hs
      obtain ⟨hr, rfl⟩ := ht
      refine Semaphore.take h (by rw [hh]; rfl) ?_
      by_cases hway : 0 < handed s.phase
      · exact ho hr ⟨how, hh⟩ hway
      · have hbelow := hb t how _ hh
        omega
    · cases hs
      exact Semaphore.quiet h (by rw [hh]; rfl) rfl
  case h_4 hh =>
    cases hs
    refine Semaphore.quiet h (by rw [hh]; rfl) ?_
    split <;> rfl
  case h_5 how hh =>
    cases hs
    exact Semaphore.enqueue h hh ho
  case h_6 how hh =>
    cases hs
    exact Semaphore.move h (by rintro _ ⟨⟩) (by rw [hh]; rintro _ ⟨⟩) (by rw [hh]; rfl) (by rw [hh]; rfl)
  case h_7 sent hh =>
    cases hs
    cases sent with
    | false =>
      exact Semaphore.move h (by rintro _ ⟨⟩) (by rw [hh]; rintro _ ⟨⟩) (by rw [hh]; rfl) (by rw [hh]; rfl)
    | true => exact Semaphore.leave h (by rw [hh]; rfl) (ho ⟨_, hh⟩) (by rw [hh]; rintro _ ⟨⟩)
  case h_8 hh =>
    cases hs
    exact Semaphore.move h (by rintro _ ⟨⟩) (by rw [hh]; rintro _ ⟨⟩) (by rw [hh]; rfl) (by rw [hh]; rfl)
  case h_9 hh =>
    cases hs
    have hhe := held_le_total Phase.holds s.phase t
    rw [← Semaphore.counted h, hh] at hhe
    have hone : (Phase.holding : Phase ι).holds = 1 := rfl
    refine Semaphore.move h (by rintro _ ⟨⟩) (by rw [hh]; rintro _ ⟨⟩) ?_ (by rw [hh]; rfl)
    show s.active - 1 + (s.phase t).holds = s.active + 0
    rw [hh]
    omega
  case h_10 hh =>
    split at hs
    · next he =>
      cases hs
      have hn : ∀ w ∈ s.waiters, ¬ Live s.phase w := by
        rw [he]
        rintro _ ⟨⟩
      exact Semaphore.leave h (by rw [hh]; rfl) hn (by rw [hh]; rintro _ ⟨⟩)
    · next w rest hq =>
      cases hs
      exact Semaphore.popSome h hh hq
  case h_11 w hh =>
    cases hs
    by_cases hl : Live s.phase w
    · obtain ⟨how, hw⟩ := hl
      rw [deliver_live hw]
      exact Semaphore.wake h hh hw
    · rw [deliver_dead hl]
      refine Semaphore.leave h (by rw [hh]; rfl) (ho w hh hl) fun v hse => ?_
      rw [hh] at hse
      cases hse
      exact hl
  case h_12 => cases hs

omit [DecidableEq ι] in
theorem isSemaphore_new : (new : Limiter ι).IsSemaphore max where
  counted := (total_eq_zero fun _ => rfl).symm
  bounded := by
    rw [show handed (new : Limiter ι).phase = 0 from total_eq_zero fun _ => rfl]
    exact Nat.zero_le max
  served := by rintro ⟨_, ⟨⟩, _⟩
  queued := by rintro _ ⟨_, ⟨⟩⟩

omit [Fintype ι] in
theorem Quiescent.not_hands (hq : s.Quiescent max maxQueueSize) (t : ι) : (s.phase t).hands = 0 := by
  have hs (a : Action) (hg : (Limiter.step max maxQueueSize s (t, a)).isSome)
      (ho : ¬ ((∃ how, a = .call how) ∨ a = .drop ∨ a = .timeout)) : False := ho (hq t a hg)
  cases hh : s.phase t with
  | popping =>
    have hg : (Limiter.step max maxQueueSize s (t, .pop)).isSome := by
      simp only [Limiter.step, hh]
      split <;> rfl
    exact (hs .pop hg (by simp)).elim
  | sending w => exact (hs .send (by simp only [Limiter.step, hh]; rfl) (by simp)).elim
  | counting => exact (hs .count (by simp only [Limiter.step, hh]; rfl) (by simp)).elim
  | waiting how sent =>
    cases sent with
    | false => rfl
    | true => exact (hs .receive (by simp only [Limiter.step, hh]; rfl) (by simp)).elim
  | notCalled | trying | loaded | checkingQueue | enqueuing | holding | done => rfl

theorem IsSemaphore.rest (h : s.IsSemaphore max) (hq : s.Quiescent max maxQueueSize) {how : Acquire}
    {sent : Bool} (hw : s.phase t = .waiting how sent) : s.active = max := by
  have hn : handed s.phase = 0 := total_eq_zero hq.not_hands
  have hu : sent = false := by
    cases sent with
    | false => rfl
    | true =>
      have hh := hq.not_hands t
      rw [hw] at hh
      cases hh
  subst hu
  rcases Semaphore.queued h t ⟨how, hw⟩ with hm | ⟨v, hs⟩
  · have hf := Semaphore.served h ⟨t, hm, how, hw⟩
    omega
  · have hh := hq.not_hands v
    rw [hs] at hh
    cases hh

/-- The limiter is a bounded semaphore along orderly runs. -/
theorem limiter_bounded_semaphore (max maxQueueSize : Nat) (as : List (ι × Action)) (s : Limiter ι)
    (horderly : Runs.Along (Limiter.step max maxQueueSize) (Orderly max) new as)
    (hran : Runs.run (Limiter.step max maxQueueSize) new as = some s) :
    s.active ≤ max ∧
      (s.Quiescent max maxQueueSize → s.active < max → ∀ t how sent, s.phase t ≠ .waiting how sent) := by
  have hinv : s.IsSemaphore max ∧ s.LoadedBelow max :=
    Runs.run_invariant_along (P := fun s => IsSemaphore max s ∧ LoadedBelow max s)
      (fun _ _ _ h hok hstepped => ⟨h.1.step h.2 hok hstepped, h.2.step hstepped⟩)
      ⟨isSemaphore_new, by rintro _ _ _ ⟨⟩⟩ horderly hran
  have hsemaphore := hinv.1
  refine ⟨?_, fun hquiescent hfree t how sent hwaits => ?_⟩
  · exact Nat.le_trans (Nat.le_add_right _ _) (Semaphore.bounded hsemaphore)
  · have hfull := hsemaphore.rest hquiescent hwaits
    omega

end Limiter

end Semaphore

namespace Limiter

def handover : List (Fin 2 × Action) :=
  [(0, .call .acquire), (0, .load), (0, .compareExchange false), (1, .call .acquire), (1, .load), (1, .enqueue),
    (0, .drop), (0, .pop), (0, .send), (1, .receive), (1, .count)]

theorem limiter_bounded_semaphore_handover : ∃ s : Limiter (Fin 2),
    Runs.run (step 1 0) new handover = some s ∧ s.phase 1 = .holding ∧ s.active ≤ 1 := by
  refine ⟨_, rfl, rfl, ?_⟩
  exact (limiter_bounded_semaphore 1 0 handover _ (by decide) rfl).1

def overtaken : List (Fin 3 × Action) :=
  [(0, .call .acquire), (0, .load), (0, .compareExchange false), (1, .call .acquire), (1, .load), (1, .enqueue),
    (0, .drop), (2, .call .tryAcquire), (2, .load), (2, .compareExchange false), (0, .pop), (0, .send),
    (1, .receive), (1, .count)]

def unnoticed : List (Fin 2 × Action) :=
  [(0, .call .acquire), (0, .load), (0, .compareExchange false), (1, .call .acquire), (1, .load), (0, .drop),
    (0, .pop), (1, .enqueue)]

theorem not_limiter_bounded_semaphore :
    (∃ s : Limiter (Fin 3), Runs.run (step 1 0) new overtaken = some s ∧ s.active = 2) ∧
    ∃ s : Limiter (Fin 2), Runs.run (step 1 0) new unnoticed = some s ∧ s.Quiescent 1 0 ∧ s.active = 0 ∧
      s.phase 1 = .waiting .acquire false := by
  refine ⟨⟨_, rfl, rfl⟩, _, rfl, fun t a hgo => ?_, rfl, rfl⟩
  fin_cases t <;> cases a <;> cases hgo

end Limiter

end HeliosProxy.RateLimit
