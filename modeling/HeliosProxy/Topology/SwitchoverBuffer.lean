import HeliosProxy.Lib.Runs
import HeliosProxy.Text.Find

/-!
# The switchover buffer

While a switchover lasts, queries are put into a queue, and once it is over they are run on
the new primary, or failed.  A call looks at the mode, the time, the length and the memory
one after another before it enters the queue, and adds its size to the memory afterwards;
the switchover takes the queue and then sets the memory to zero.

A call that has passed its checks enters the queue whatever has become of it.  Where it has
not grown since the call has read its length and has not been taken, and no size is added to
a memory that was reset, the queue is bounded, the memory is exact, and every query in it is
answered once.
-/

namespace HeliosProxy.Switchover

open Text Parties Function

structure BufferConfig where
  maxBufferedQueries : Nat
  maxBufferMemory : Nat
  bufferTimeout : Nat

structure Query where
  sql : Str
  params : List (List UInt8)
deriving DecidableEq

def Query.size (q : Query) : Nat := byteLen q.sql + (q.params.map List.length).sum

structure BufferedQuery (ι : Type) where
  caller : ι
  query : Query
  bufferedAt : Nat
deriving DecidableEq

inductive BufferResult
  | timeout
  | success
  | error
  | switchoverFailed
deriving DecidableEq

/-- Where a call of `buffer_query` stands: the checks it has passed, with the length it has
read, then its push. -/
inductive CallPhase
  | notCalled
  | entered (q : Query)
  | timely (q : Query)
  | roomy (q : Query) (len : Nat)
  | fitting (q : Query) (len : Nat)
  | pushed (q : Query)
  | returned (ok : Bool)
deriving DecidableEq

inductive SwitchPhase (ι : Type)
  | idle
  | starting
  | buffering
  | stopped
  /-- `drain` or `fail_all` has emptied the queue. -/
  | taken (failing : Bool) (queries : List (BufferedQuery ι))
  | answering (failing : Bool) (queries : List (BufferedQuery ι))
  | done
deriving DecidableEq

structure SwitchoverBuffer (ι : Type) where
  isBuffering : Bool
  bufferingStarted : Option Nat
  buffer : List (BufferedQuery ι)
  bufferMemory : Nat
  phase : ι → CallPhase
  switch : SwitchPhase ι
  results : List (ι × BufferResult)

inductive Action (ι : Type)
  | call (t : ι) (q : Query)
  | checkTimeout (t : ι) (now : Nat)
  | checkCapacity (t : ι)
  | checkMemory (t : ι)
  | push (t : ι) (now : Nat)
  | fetchAdd (t : ι)
  | startBuffering
  | noteStarted (now : Nat)
  | stopBuffering
  | take (failing : Bool)
  | resetMemory
  /-- One turn of the loop; `executed` is what the new primary makes of the query. -/
  | answer (now : Nat) (executed : Bool)
  | finish
deriving DecidableEq

namespace SwitchoverBuffer

variable {ι : Type} [DecidableEq ι]

def new : SwitchoverBuffer ι := ⟨false, none, [], 0, fun _ => .notCalled, .idle, []⟩

def goTo (s : SwitchoverBuffer ι) (t : ι) (p : CallPhase) : SwitchoverBuffer ι :=
  { s with phase := update s.phase t p }

def check (s : SwitchoverBuffer ι) (t : ι) (passes : Bool) (p : CallPhase) : SwitchoverBuffer ι :=
  s.goTo t (if passes then p else .returned false)

def resultOf (cfg : BufferConfig) (failing : Bool) (q : BufferedQuery ι) (now : Nat) (executed : Bool) : BufferResult :=
  if failing then .switchoverFailed
  else if cfg.bufferTimeout < now - q.bufferedAt then .timeout
  else if executed then .success
  else .error

def step (cfg : BufferConfig) (s : SwitchoverBuffer ι) : Action ι → Option (SwitchoverBuffer ι)
  | .call t q => if s.phase t = .notCalled then some (s.check t s.isBuffering (.entered q)) else none
  | .checkTimeout t now =>
    match s.phase t with
    | .entered q =>
      some (s.check t (s.bufferingStarted.all fun started => now - started ≤ cfg.bufferTimeout) (.timely q))
    | _ => none
  | .checkCapacity t =>
    match s.phase t with
    | .timely q =>
      let len := s.buffer.length
      some (s.check t (len < cfg.maxBufferedQueries) (.roomy q len))
    | _ => none
  | .checkMemory t =>
    match s.phase t with
    | .roomy q len => some (s.check t (s.bufferMemory + q.size ≤ cfg.maxBufferMemory) (.fitting q len))
    | _ => none
  | .push t now =>
    match s.phase t with
    | .fitting q _ => some { s.goTo t (.pushed q) with buffer := s.buffer ++ [⟨t, q, now⟩] }
    | _ => none
  | .fetchAdd t =>
    match s.phase t with
    | .pushed q => some { s.goTo t (.returned true) with bufferMemory := s.bufferMemory + q.size }
    | _ => none
  | .startBuffering => if s.switch = .idle then some { s with isBuffering := true, switch := .starting } else none
  | .noteStarted now =>
    if s.switch = .starting then some { s with bufferingStarted := some now, switch := .buffering } else none
  | .stopBuffering => if s.switch = .buffering then some { s with isBuffering := false, switch := .stopped } else none
  | .take failing =>
    if s.switch = .stopped then some { s with buffer := [], switch := .taken failing s.buffer } else none
  | .resetMemory =>
    match s.switch with
    | .taken failing queries => some { s with bufferMemory := 0, switch := .answering failing queries }
    | _ => none
  | .answer now executed =>
    match s.switch with
    | .answering failing (q :: queries) =>
      some { s with
        switch := .answering failing queries
        results := s.results ++ [(q.caller, resultOf cfg failing q now executed)] }
    | _ => none
  | .finish =>
    match s.switch with
    | .answering _ [] => some { s with switch := .done }
    | _ => none

/-! ## What holds of the buffer -/

def sizes (qs : List (BufferedQuery ι)) : Nat := (qs.map (·.query.size)).sum

def asked (t : ι) (qs : List (BufferedQuery ι)) : Nat := qs.countP (·.caller = t)

def answers (s : SwitchoverBuffer ι) (t : ι) : Nat := s.results.countP (·.1 = t)

/-- No call of `buffer_query` is under way. -/
def Settled (s : SwitchoverBuffer ι) : Prop := ∀ t, s.phase t = .notCalled ∨ ∃ ok, s.phase t = .returned ok

/-- Neither `drain` nor `fail_all` is under way. -/
def Undisturbed (s : SwitchoverBuffer ι) : Prop :=
  ∀ failing queries, s.switch ≠ .taken failing queries ∧ s.switch ≠ .answering failing queries

structure Safe (cfg : BufferConfig) (s : SwitchoverBuffer ι) : Prop where
  bounded : s.buffer.length ≤ cfg.maxBufferedQueries
  exact : s.Settled → s.Undisturbed → s.bufferMemory = sizes s.buffer
  answered : s.Settled → s.switch = .done → ∀ t, s.phase t = .returned true → s.answers t = 1

end SwitchoverBuffer

open SwitchoverBuffer

def SwitchPhase.queries {ι : Type} : SwitchPhase ι → List (BufferedQuery ι)
  | .taken _ queries | .answering _ queries => queries
  | _ => []

def SwitchPhase.hasTaken {ι : Type} : SwitchPhase ι → Bool
  | .taken _ _ | .answering _ _ | .done => true
  | _ => false

def SwitchPhase.hasReset {ι : Type} : SwitchPhase ι → Bool
  | .answering _ _ | .done => true
  | _ => false

def CallPhase.accepted : CallPhase → Nat
  | .pushed _ | .returned true => 1
  | _ => 0

/-- The length that a call with its push still to come has read. -/
def CallPhase.read : CallPhase → Option Nat
  | .roomy _ len | .fitting _ len => some len
  | _ => none

def CallPhase.owed : CallPhase → Nat
  | .pushed q => q.size
  | _ => 0

namespace SwitchoverBuffer

variable {ι : Type} [DecidableEq ι]

/-- A query enters a queue that has not grown since the call has read its length and that was
not taken, and no size is added to a memory that was reset. -/
def Orderly (s : SwitchoverBuffer ι) : Action ι → Prop
  | .push t _ => (∀ len ∈ (s.phase t).read, s.buffer.length ≤ len) ∧ s.switch.hasTaken = false
  | .fetchAdd _ => s.switch.hasReset = false
  | _ => True

instance (s : SwitchoverBuffer ι) (a : Action ι) : Decidable (s.Orderly a) := by
  cases a <;> unfold SwitchoverBuffer.Orderly <;> infer_instance

section

variable [Fintype ι]

structure Inv (cfg : BufferConfig) (s : SwitchoverBuffer ι) : Prop where
  bounded : s.buffer.length ≤ cfg.maxBufferedQueries
  room : ∀ t, ∀ len ∈ (s.phase t).read, len < cfg.maxBufferedQueries
  emptied : s.switch.hasTaken = true → s.buffer = []
  reset : s.switch.hasReset = true → s.bufferMemory = 0
  memory : s.switch.hasReset = false →
    s.bufferMemory + total CallPhase.owed s.phase = sizes s.buffer + sizes s.switch.queries
  answered : ∀ t, asked t s.buffer + asked t s.switch.queries + s.answers t = (s.phase t).accepted

variable {cfg : BufferConfig} {s s' : SwitchoverBuffer ι}

section

variable (h : s.Inv cfg)
include h

theorem Inv.safe : s.Safe cfg where
  bounded := h.bounded
  exact hse hu := by
    have hn : total CallPhase.owed s.phase = 0 := total_eq_zero fun t => by
      rcases hse t with hh | ⟨ok, hh⟩ <;> rw [hh] <;> rfl
    cases hr : s.switch.hasReset with
    | false =>
      have hm := h.memory hr
      cases hs : s.switch with
      | taken failing queries => exact absurd hs (hu failing queries).1
      | answering failing queries => exact absurd hs (hu failing queries).2
      | _ =>
        rw [hs, hn] at hm
        exact hm
    | true =>
      have he : s.buffer = [] := h.emptied (by revert hr; cases s.switch <;> simp [SwitchPhase.hasReset, SwitchPhase.hasTaken])
      rw [h.reset hr, he]
      rfl
  answered _ hd t hok := by
    have ha := h.answered t
    rw [h.emptied (by rw [hd]; rfl), hd, hok] at ha
    simpa [asked, SwitchPhase.queries, CallPhase.accepted] using ha

/-- A call goes on, and changes the queue and the memory along with what it has put there and owes. -/
theorem Inv.move {t : ι} {p : CallPhase} {buffer : List (BufferedQuery ι)} {memory : Nat}
    (hbo : buffer.length ≤ cfg.maxBufferedQueries)
    (hroom : ∀ len ∈ p.read, len < cfg.maxBufferedQueries) (he : s.switch.hasTaken → buffer = [])
    (hr : s.switch.hasReset → memory = 0)
    (hk : s.switch.hasReset = false →
      memory + p.owed + sizes s.buffer = s.bufferMemory + (s.phase t).owed + sizes buffer)
    (how : asked t buffer + (s.phase t).accepted = asked t s.buffer + p.accepted)
    (ho : ∀ u, u ≠ t → asked u buffer = asked u s.buffer) :
    ({ s.goTo t p with buffer := buffer, bufferMemory := memory } : SwitchoverBuffer ι).Inv cfg where
  bounded := hbo
  room u len hlen := by
    by_cases hs : u = t
    · subst hs
      exact hroom len (update_self u p s.phase ▸ hlen)
    · exact h.room u len (update_of_ne hs p s.phase ▸ hlen)
  emptied := he
  reset := hr
  memory hn := by
    have hm := total_update CallPhase.owed s.phase t p
    have hb := h.memory hn
    have hc := hk hn
    show memory + total CallPhase.owed (update s.phase t p) = sizes buffer + sizes s.switch.queries
    omega
  answered u := by
    have hb := h.answered u
    show asked u buffer + asked u s.switch.queries + s.answers u = (update s.phase t p u).accepted
    by_cases hs : u = t
    · subst hs
      rw [update_self]
      omega
    · rw [update_of_ne hs, ho u hs]
      exact hb

/-- A call goes on to its next check, or returns; the length that it carries is one that had
room. -/
theorem Inv.check {t : ι} {passes : Bool} {p : CallPhase} (hb : (s.phase t).accepted = 0)
    (hn : (s.phase t).owed = 0) (ha : p.accepted = 0) (ho : p.owed = 0)
    (hroom : passes = true → ∀ len ∈ p.read, len < cfg.maxBufferedQueries) : (s.check t passes p).Inv cfg := by
  have hw : (if passes then p else .returned false).accepted = 0 ∧
      (if passes then p else .returned false).owed = 0 ∧
      ∀ len ∈ (if passes then p else .returned false).read, len < cfg.maxBufferedQueries := by
    cases passes
    · exact ⟨rfl, rfl, nofun⟩
    · exact ⟨ha, ho, hroom rfl⟩
  exact h.move h.bounded hw.2.2 h.emptied h.reset (fun _ => by rw [hw.2.1, hn]) (by rw [hw.1, hb])
    fun _ _ => rfl

theorem Inv.switch {isBuffering : Bool} {started : Option Nat} {switch : SwitchPhase ι}
    (ht : switch.hasTaken = s.switch.hasTaken) (hr : switch.hasReset = s.switch.hasReset)
    (hq : switch.queries = s.switch.queries) :
    ({ s with isBuffering := isBuffering, bufferingStarted := started, switch := switch } : SwitchoverBuffer ι).Inv cfg where
  bounded := h.bounded
  room := h.room
  emptied := ht ▸ h.emptied
  reset := hr ▸ h.reset
  memory := by
    rw [hr, hq]
    exact h.memory
  answered t := by
    rw [hq]
    exact h.answered t

theorem Inv.step {a : Action ι} (ho : s.Orderly a) (hs : s.step cfg a = some s') :
    s'.Inv cfg := by
  cases a with
  | call t q =>
    obtain ⟨hh, ⟨⟩⟩ := Option.ite_none_right_eq_some.mp hs
    exact h.check (by rw [hh]; rfl) (by rw [hh]; rfl) rfl rfl nofun
  | checkTimeout t =>
    simp only [SwitchoverBuffer.step] at hs
    split at hs
    · next q hh =>
      cases hs
      exact h.check (by rw [hh]; rfl) (by rw [hh]; rfl) rfl rfl nofun
    · cases hs
  | checkCapacity t =>
    simp only [SwitchoverBuffer.step] at hs
    split at hs
    · next q hh =>
      cases hs
      refine h.check (by rw [hh]; rfl) (by rw [hh]; rfl) rfl rfl fun hpasses len hlen => ?_
      cases hlen
      exact of_decide_eq_true hpasses
    · cases hs
  | checkMemory t =>
    simp only [SwitchoverBuffer.step] at hs
    split at hs
    · next q len hh =>
      cases hs
      have hroom := h.room t
      rw [hh] at hroom
      exact h.check (by rw [hh]; rfl) (by rw [hh]; rfl) rfl rfl fun _ => hroom
    · cases hs
  | push t now =>
    simp only [SwitchoverBuffer.step] at hs
    split at hs
    · next q len hh =>
      cases hs
      have hread : (s.phase t).read = some len := by rw [hh]; rfl
      have hlen : s.buffer.length < cfg.maxBufferedQueries := (ho.1 len hread).trans_lt (h.room t len hread)
      refine h.move (by simpa using hlen) nofun (fun ht => ?_) h.reset (fun _ => ?_) ?_ fun u hot => ?_
      · rw [ho.2] at ht
        cases ht
      · simp [hh, sizes, CallPhase.owed, goTo]
        omega
      · simp [hh, asked, CallPhase.accepted]
      · simp [asked, hot.symm]
    · cases hs
  | fetchAdd t =>
    simp only [SwitchoverBuffer.step] at hs
    split at hs
    · next q hh =>
      cases hs
      refine h.move h.bounded nofun h.emptied (fun hr => ?_) (fun _ => ?_) ?_ fun _ _ => rfl
      · rw [show s.switch.hasReset = false from ho] at hr
        cases hr
      · simp [hh, CallPhase.owed, goTo]
      · simp [hh, CallPhase.accepted, goTo]
    · cases hs
  | startBuffering | noteStarted | stopBuffering =>
    obtain ⟨hh, ⟨⟩⟩ := Option.ite_none_right_eq_some.mp hs
    exact h.switch (by rw [hh]; rfl) (by rw [hh]; rfl) (by rw [hh]; rfl)
  | take failing =>
    obtain ⟨hh, ⟨⟩⟩ := Option.ite_none_right_eq_some.mp hs
    refine ⟨Nat.zero_le _, h.room, fun _ => rfl, nofun, fun _ => ?_, fun t => ?_⟩
    · have hm := h.memory (by rw [hh]; rfl)
      simpa [hh, SwitchPhase.queries, sizes] using hm
    · have ha := h.answered t
      simpa [hh, SwitchPhase.queries, asked, answers] using ha
  | resetMemory =>
    simp only [SwitchoverBuffer.step] at hs
    split at hs
    · next failing queries hh =>
      cases hs
      refine ⟨h.bounded, h.room, fun _ => h.emptied (by rw [hh]; rfl), fun _ => rfl, nofun, fun t => ?_⟩
      have ha := h.answered t
      rwa [hh] at ha
    · cases hs
  | answer now executed =>
    simp only [SwitchoverBuffer.step] at hs
    split at hs
    · next failing q queries hh =>
      cases hs
      refine ⟨h.bounded, h.room, fun _ => h.emptied (by rw [hh]; rfl), fun _ => h.reset (by rw [hh]; rfl), nofun,
        fun t => ?_⟩
      have ha := h.answered t
      rw [hh] at ha
      simp [asked, answers, SwitchPhase.queries, List.countP_cons] at ha ⊢
      omega
    · cases hs
  | finish =>
    simp only [SwitchoverBuffer.step] at hs
    split at hs
    · next failing hh =>
      cases hs
      exact h.switch (by rw [hh]; rfl) (by rw [hh]; rfl) (by rw [hh]; rfl)
    · cases hs

end

theorem inv_new (cfg : BufferConfig) : (new : SwitchoverBuffer ι).Inv cfg where
  bounded := Nat.zero_le _
  room := nofun
  emptied := nofun
  reset := nofun
  memory _ := by
    rw [show total CallPhase.owed (new : SwitchoverBuffer ι).phase = 0 from total_eq_zero fun _ => rfl]
    rfl
  answered _ := rfl

/-- In every orderly run of any number of calls with a switchover, whatever their order. -/
theorem switchoverBuffer_safe (cfg : BufferConfig) (as : List (Action ι)) {s : SwitchoverBuffer ι}
    (hran : Runs.run (step cfg) new as = some s) (horderly : Runs.Along (step cfg) Orderly new as) :
    s.Safe cfg :=
  (Runs.run_invariant_along (fun _ _ _ h horderly hstepped => Inv.step h horderly hstepped) (inv_new cfg)
    horderly hran).safe

end

def enters (t : Bool) : List (Action Bool) :=
  [.call t ⟨[], [[0]]⟩, .checkTimeout t 0, .checkCapacity t, .checkMemory t]

/-- Two calls fill the queue one after the other, and the switchover runs to its end. -/
theorem switchoverBuffer_safe_drain : ∃ s : SwitchoverBuffer Bool,
    s.switch = .done ∧ (∀ t, s.phase t = .returned true) ∧ s.results = [(true, .success), (false, .timeout)] ∧
      s.Safe ⟨2, 2, 1⟩ := by
  have hran : (Runs.run (step ⟨2, 2, 1⟩) new ([.startBuffering, .noteStarted 0] ++ enters true ++
      [.push true 0, .fetchAdd true] ++ enters false ++ [.push false 0, .stopBuffering, .fetchAdd false,
        .take false, .resetMemory, .answer 1 true, .answer 2 true, .finish])).isSome = true := by
    decide
  obtain ⟨s, hran⟩ := Option.isSome_iff_exists.mp hran
  have hsafe := switchoverBuffer_safe ⟨2, 2, 1⟩ _ hran (by decide)
  cases hran
  exact ⟨_, rfl, by decide, rfl, hsafe⟩

/-- Two calls have both found room for one query. -/
theorem not_switchoverBuffer_safe :
    (Runs.run (step ⟨1, 2, 1⟩) new ([.startBuffering, .noteStarted 0] ++ enters true ++ enters false ++
      [.push true 0, .push false 0])).map (·.buffer.length) = some 2 := by
  decide

/-! ## Orderly or not -/

/-- A query that entered the queue is there, with the switchover or answered, and only once. -/
def Traced (s : SwitchoverBuffer ι) : Prop :=
  ∀ t, asked t s.buffer + asked t s.switch.queries + s.answers t = (s.phase t).accepted

theorem Traced.step (cfg : BufferConfig) (s : SwitchoverBuffer ι) (a : Action ι) (s' : SwitchoverBuffer ι)
    (h : s.Traced) (hs : s.step cfg a = some s') : s'.Traced := by
  intro u
  have hb := h u
  cases a with
  | call | checkTimeout | checkCapacity | checkMemory | push | fetchAdd =>
    simp only [SwitchoverBuffer.step] at hs
    split at hs <;> cases hs
    simp only [check, goTo, asked, answers] at hb ⊢
    grind [CallPhase.accepted]
  | _ =>
    simp only [SwitchoverBuffer.step] at hs
    split at hs <;> cases hs
    simp_all [asked, answers, SwitchPhase.queries, List.countP_cons] <;> omega

theorem answered_at_most_once (cfg : BufferConfig) (as : List (Action ι)) {s : SwitchoverBuffer ι}
    (hran : Runs.run (step cfg) new as = some s) : s.Traced :=
  Runs.run_invariant (Traced.step cfg) (fun _ => rfl) hran

/-- A query that comes after the switchover is left in the queue. -/
theorem answered_at_most_once_late : ∃ s : SwitchoverBuffer Bool, s.switch = .done ∧ s.buffer ≠ [] ∧ s.Traced := by
  have hran : (Runs.run (step ⟨1, 1, 1⟩) new ([.startBuffering, .noteStarted 0] ++ enters true ++
      [.stopBuffering, .take false, .resetMemory, .finish, .push true 0])).isSome = true := by
    decide
  obtain ⟨s, hran⟩ := Option.isSome_iff_exists.mp hran
  have htraced := answered_at_most_once _ _ hran
  cases hran
  exact ⟨_, rfl, by decide, htraced⟩

end SwitchoverBuffer

end HeliosProxy.Switchover
