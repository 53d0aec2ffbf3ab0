import HeliosProxy.Lib.Runs

/-!
# The token bucket

One counter of thousandths of tokens, changed by compare-exchange alone: a refill adds what
the clock gives, under a lock that holds off other refills only, a request takes its tokens
and a cancelled one gives them back.  Each call is a party of its own, which acts once.
-/

namespace HeliosProxy.RateLimit

open Runs

inductive BucketCall
  | tryAcquire (tokens : UInt32)
  | refill
  | returnTokens (tokens : UInt32)
deriving DecidableEq

/-- The loops over `compare_exchange_weak`.  The refill goes on to the call it is part of. -/
inductive Update
  | take (tokens : UInt32)
  | refill (amount : Nat) (call : BucketCall)
  | give (tokens : UInt32)
deriving DecidableEq

inductive BucketPhase
  | notCalled
  | locking (call : BucketCall)
  /-- Holds `refill_lock`, in front of the clock. -/
  | measuring (call : BucketCall)
  | loading (u : Update)
  | swapping (u : Update) (current : Nat)
  | done
deriving DecidableEq

inductive BucketAction
  | call (call : BucketCall)
  | lock
  | measure (amount : Nat)
  | load
  | compareExchange (spurious : Bool)
deriving DecidableEq

/-- `TokenBucket` and the calls on it, with what they granted, measured and returned. -/
structure TokenBucket (ι : Type) where
  tokens : Nat
  refillLock : Bool
  phase : ι → BucketPhase
  granted : Nat
  refilled : Nat
  returned : Nat

/-- The new value of the counter, in 64 bits; none if there are too few tokens. -/
def Update.updated (capacity : UInt32) (current : Nat) : Update → Option Nat
  | .take tokens =>
    if tokens.toNat * 1000 ≤ current then some ((current + 2 ^ 64 - tokens.toNat * 1000) % 2 ^ 64) else none
  | .refill amount _ => some (min ((current + amount) % 2 ^ 64) (capacity.toNat * 1000))
  | .give tokens => some (min ((current + tokens.toNat * 1000) % 2 ^ 64) (capacity.toNat * 1000))

/-- Behind the refill of a call. -/
def BucketCall.refilled : BucketCall → BucketPhase
  | .tryAcquire tokens => .loading (.take tokens)
  | _ => .done

def Update.next : Update → BucketPhase
  | .refill _ call => call.refilled
  | _ => .done

namespace TokenBucket

variable {ι : Type} [DecidableEq ι]

def new (capacity : UInt32) : TokenBucket ι := ⟨capacity.toNat * 1000, false, fun _ => .notCalled, 0, 0, 0⟩

def goTo (s : TokenBucket ι) (t : ι) (p : BucketPhase) : TokenBucket ι :=
  { s with phase := Function.update s.phase t p }

def record (s : TokenBucket ι) : Update → TokenBucket ι
  | .take tokens => { s with granted := s.granted + tokens.toNat }
  | .refill amount _ => { s with refilled := s.refilled + amount, refillLock := false }
  | .give tokens => { s with returned := s.returned + tokens.toNat }

def step (capacity : UInt32) (s : TokenBucket ι) : ι × BucketAction → Option (TokenBucket ι)
  | (t, a) =>
    match s.phase t, a with
    | .notCalled, .call (.returnTokens tokens) => some (s.goTo t (.loading (.give tokens)))
    | .notCalled, .call call => some (s.goTo t (.locking call))
    | .locking call, .lock => if s.refillLock then none else some { s.goTo t (.measuring call) with refillLock := true }
    | .measuring call, .measure amount =>
      if amount = 0 then some { s.goTo t call.refilled with refillLock := false }
      else some (s.goTo t (.loading (.refill amount call)))
    | .loading u, .load => some (s.goTo t (.swapping u s.tokens))
    | .swapping u current, .compareExchange spurious =>
      match u.updated capacity current with
      | none => some (s.goTo t .done)
      | some new =>
        if spurious = false ∧ s.tokens = current then some { (s.record u).goTo t u.next with tokens := new }
        else some (s.goTo t (.swapping u s.tokens))
    | _, _ => none

variable {capacity : UInt32} {s s' : TokenBucket ι}

/-- No more was granted than was there at first, came in or came back. -/
structure Conserved (capacity : UInt32) (s : TokenBucket ι) : Prop where
  capped : s.tokens ≤ capacity.toNat * 1000
  conserved : 1000 * s.granted + s.tokens ≤ capacity.toNat * 1000 + s.refilled + 1000 * s.returned

omit [DecidableEq ι] in
theorem Conserved.record {u : Update} {new : Nat} (h : Conserved capacity s)
    (hu : u.updated capacity s.tokens = some new) : Conserved capacity { s.record u with tokens := new } := by
  obtain ⟨hc, hco⟩ := h
  have hs := capacity.toNat_lt
  cases u with
  | take tokens =>
    obtain ⟨he, ⟨⟩⟩ := Option.ite_none_right_eq_some.mp hu
    constructor <;> dsimp only [TokenBucket.record] <;> omega
  | refill amount call | give tokens =>
    cases hu
    constructor <;> dsimp only [TokenBucket.record] <;> omega

theorem Conserved.step {a : ι × BucketAction} (h : Conserved capacity s) (hs : s.step capacity a = some s') :
    Conserved capacity s' := by
  unfold TokenBucket.step at hs
  dsimp only at hs
  split at hs
  case h_6 u current _ _ =>
    split at hs
    · cases hs
      exact ⟨h.capped, h.conserved⟩
    · split at hs
      case isTrue hsa =>
        obtain ⟨-, rfl⟩ := hsa
        cases hs
        obtain ⟨hc, hco⟩ := h.record ‹_›
        exact ⟨hc, hco⟩
      case isFalse =>
        cases hs
        exact ⟨h.capped, h.conserved⟩
  all_goals
    try split at hs
    all_goals
      cases hs
      try exact ⟨h.capped, h.conserved⟩

/-- The counter is taken from in 64 bits, where an underflow would leave it above the
capacity. -/
theorem tokens_conserved (capacity : UInt32) {actions : List (ι × BucketAction)} {s : TokenBucket ι}
    (hran : run (step capacity) (new capacity) actions = some s) :
    s.tokens ≤ capacity.toNat * 1000 ∧
      1000 * s.granted + s.tokens ≤ capacity.toNat * 1000 + s.refilled + 1000 * s.returned := by
  obtain ⟨hcapped, hconserved⟩ := run_invariant (P := Conserved capacity) (fun _ _ _ h => h.step) ⟨le_rfl, by simp [new]⟩ hran
  exact ⟨hcapped, hconserved⟩

theorem tokens_conserved_contended :
    ∃ s : TokenBucket Bool,
      run (step 2) (new 2) [(false, .call (.tryAcquire 2)), (false, .lock), (false, .measure 0), (false, .load),
        (true, .call (.returnTokens 1)), (true, .load), (false, .compareExchange false),
        (true, .compareExchange false), (true, .compareExchange false)] = some s ∧
      s.tokens ≤ 2000 ∧ 1000 * s.granted + s.tokens ≤ 2000 + s.refilled + 1000 * s.returned :=
  Exists.imp (fun _ hran => ⟨hran, tokens_conserved 2 hran⟩) ⟨_, rfl⟩

end TokenBucket

end HeliosProxy.RateLimit
