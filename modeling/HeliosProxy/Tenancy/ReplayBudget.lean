import HeliosProxy.Lib.Runs
import HeliosProxy.Replay.Recorder

/-!
# A tenant's replay-byte budget

The sessions of a tenant share one counter of the bytes they keep for a replay.  Each
session moves its own charge while it holds the lock of its transaction state; the counter
is moved by atomic operations only, between which those of other sessions may come.
-/

namespace HeliosProxy.Tenancy

open Replay Runs Parties Function

/-! ## The charge of one session -/

/-- The values of a `usize`. -/
def usizeRange : Nat := 2 ^ 64

/-- Where a call on a `TenantCharge` stands: in front of its next atomic operation. -/
inductive Call
  | none
  /-- `replay_reserve` is about to load the counter. -/
  | loading (retained : Nat)
  /-- It is about to swap the counter it found at `used`. -/
  | trying (retained used : Nat)
  /-- The counter has grown, and the charge is about to be stored. -/
  | storing (retained : Nat)
  /-- The refusal is about to be counted. -/
  | refusing
  /-- `replay_settle` is about to swap the charge. -/
  | swapping (retained : Nat)
  | adding (amount : Nat)
  | subtracting (amount : Nat)
  | returned (result : Bool)
deriving DecidableEq

structure TenantCharge where
  replayCharged : Nat
  call : Call

/-- The counters of `TenantBudget`. -/
structure TenantBudget where
  replayInUse : Nat
  replayRefusals : Nat

section Charge

variable (limit : Nat)

/-- `replay_settle`, called. -/
def TenantCharge.replaySettle (c : TenantCharge) (retained : Nat) : TenantCharge :=
  { c with call := if limit = 0 then .returned true else .swapping retained }

/-- `replay_reserve`, called.  Only the session itself moves its charge, which is loaded
here. -/
def TenantCharge.replayReserve (c : TenantCharge) (retained : Nat) : TenantCharge :=
  if limit = 0 then { c with call := .returned true }
  else if retained ≤ c.replayCharged then c.replaySettle limit retained
  else { c with call := .loading retained }

/-- The next atomic operation of the call.  A weak exchange may fail for no reason. -/
def TenantCharge.tick (spurious : Bool) (b : TenantBudget) (c : TenantCharge) :
    Option (TenantBudget × TenantCharge) :=
  match c.call with
  | .none | .returned _ => none
  | .loading retained => some (b, { c with call := .trying retained b.replayInUse })
  | .trying retained used =>
    let next := used + (retained - c.replayCharged)
    if next < usizeRange ∧ next ≤ limit then
      if b.replayInUse = used ∧ spurious = false then
        some ({ b with replayInUse := next }, { c with call := .storing retained })
      else some (b, { c with call := .trying retained b.replayInUse })
    else some (b, { c with call := .refusing })
  | .storing retained => some (b, ⟨retained, .returned true⟩)
  | .refusing => some ({ b with replayRefusals := b.replayRefusals + 1 }, { c with call := .returned false })
  | .swapping retained =>
    let prev := c.replayCharged
    some (b, ⟨retained,
      if prev < retained then .adding (retained - prev)
      else if retained < prev then .subtracting (prev - retained)
      else .returned true⟩)
  | .adding amount =>
    some ({ b with replayInUse := (b.replayInUse + amount) % usizeRange }, { c with call := .returned true })
  | .subtracting amount =>
    some ({ b with replayInUse := (b.replayInUse + usizeRange - amount) % usizeRange },
      { c with call := .returned true })

end Charge

/-! ## What the recording asks of it -/

def tenantChargeable (mode : TrMode) (ts : TransactionState) (bytes : Nat) : Nat :=
  if mode = .select ∧ ts.hasWrites then 0 else bytes

/-- A call of `tr_after_response`. -/
structure Recording where
  session : Session
  response : Response
  sql : Option Text.Str
  extendedKind : Option StmtKind
  entry : StatementLog
  entryBytes : Nat

namespace Recording

variable (cfg : Settings) (rec : Recording)

/-- The session behind it, where the budget has answered `reserves`. -/
def after (reserves : Bool) : Session :=
  trAfterResponse cfg { rec.response with reserves } rec.sql rec.extendedKind rec.entry rec.entryBytes rec.session

def settles : Bool :=
  rec.session.recordTx && !rec.session.copyInProgress &&
    !(rec.session.lastRfqStatus == .idle && rec.session.prevStatus == .idle)

/-- A `COPY` inside the transaction: the history is given up, and the charge returned. -/
def releases : Bool :=
  rec.session.recordTx && rec.session.copyInProgress &&
    (rec.session.prevStatus != .idle || rec.session.ts.inTransaction)

def noted : TransactionState :=
  let k := rec.extendedKind.getD (trClassify cfg.allowsCall (rec.sql.getD []))
  let ts := if rec.session.prevStatus = .idle then TransactionState.opened else rec.session.ts
  let ts := ts.noteKind k
  { ts with
    nonReplayable := ts.nonReplayable || decide
      (rec.session.lastRfqStatus = .failed ∨ rec.session.trReplayTainted ∨ k = .commit) }

/-- What `tenant_replay_reserve` is asked for, if the recording comes to it. -/
def asks : Option Nat :=
  if rec.settles && rec.session.lastRfqStatus != .idle then
    let ts := rec.noted cfg
    if ts.nonReplayable then none
    else if cfg.maxReplayStatements ≤ ts.statements.length ∨
        cfg.maxReplayBytes < ts.replayBytes + rec.entryBytes then none
    else some (tenantChargeable rec.session.mode ts (ts.replayBytes + rec.entryBytes))
  else none

variable {cfg rec}

theorem chargeable_mono {mode : TrMode} {ts ts' : TransactionState} {m n : Nat} (hb : m ≤ n)
    (hwr : ts.hasWrites → ts'.hasWrites ∨ m = 0) :
    tenantChargeable mode ts' m ≤ tenantChargeable mode ts n := by
  unfold tenantChargeable
  split
  · exact Nat.zero_le _
  next hn =>
  split
  · next hw =>
    rcases hwr hw.2 with hs | hzero
    · exact absurd ⟨hw.1, hs⟩ hn
    · omega
  · exact hb

theorem chargeable_zero (mode : TrMode) (ts : TransactionState) : tenantChargeable mode ts 0 = 0 := by
  unfold tenantChargeable
  split <;> rfl

theorem noteKind_hasWrites {ts : TransactionState} (k : StmtKind) (hw : ts.hasWrites) :
    (ts.noteKind k).hasWrites := by
  unfold TransactionState.noteKind
  split
  · exact hw
  · rfl

theorem after_recorded (hse : rec.settles) (hs : rec.session.lastRfqStatus ≠ .idle) (b : Bool) :
    ∃ s : Session, (rec.after cfg b).ts =
      (record cfg { rec.response with reserves := b } rec.session.prevStatus (rec.sql.getD [])
        (rec.extendedKind.getD (trClassify cfg.allowsCall (rec.sql.getD []))) rec.entry rec.entryBytes s
        (if rec.session.prevStatus = .idle then .opened else rec.session.ts)).ts ∧
      s.lastRfqStatus = rec.session.lastRfqStatus ∧ s.trReplayTainted = rec.session.trReplayTainted := by
  simp only [Recording.settles, Bool.and_eq_true, Bool.not_eq_true'] at hse
  obtain ⟨⟨hr, hc⟩, -⟩ := hse
  refine ⟨settle { rec.response with reserves := b } (rec.extendedKind.isNone && rec.sql.isSome) rec.session,
    ?_, rfl, if_neg hs⟩
  unfold after trAfterResponse
  rw [if_neg (by simp [hr]), if_neg (by simp [hc])]
  dsimp only
  rw [if_neg, if_neg (show ¬ (settle _ _ rec.session).lastRfqStatus = .idle from hs)]
  · rfl
  rintro (hu | ⟨hi, -⟩)
  · rw [show (settle _ _ rec.session).recordTx = rec.session.recordTx from rfl, hr] at hu
    cases hu
  · exact hs hi

theorem record_bytes (r : Response) (prev : Postgres.BlockStatus) (sql : Text.Str) (k : StmtKind)
    (entry : StatementLog) (n : Nat) (s : Session) (ts : TransactionState) :
    let spoilt := (ts.noteKind k).nonReplayable || decide
      (s.lastRfqStatus = .failed ∨ s.trReplayTainted ∨ k = .commit)
    let ts' := (record cfg r prev sql k entry n s ts).ts
    ts'.replayBytes = 0 ∨ ts'.hasWrites = (ts.noteKind k).hasWrites ∧
      (spoilt ∧ ts'.replayBytes = ts.replayBytes ∨
        spoilt = false ∧ r.reserves ∧ ts'.replayBytes = ts.replayBytes + n ∧
          ¬ (cfg.maxReplayStatements ≤ ts.statements.length ∨ cfg.maxReplayBytes < ts.replayBytes + n)) := by
  intro spoilt ts'
  unfold ts' record
  dsimp only
  split
  case isTrue hn =>
    split
    · exact .inr ⟨rfl, .inl ⟨hn, TransactionState.noteKind_replayBytes ts k⟩⟩
    · exact .inl rfl
  case isFalse hs =>
    simp only [TransactionState.noteKind_replayBytes, TransactionState.noteKind_statements]
    split
    · exact .inl rfl
    next hf =>
    split
    · exact .inl rfl
    split
    · exact .inl rfl
    · refine .inr ⟨rfl, .inr ⟨Bool.eq_false_iff.mpr hs, ?_, rfl, fun hfu => hf (hfu.imp_right .inl)⟩⟩
      by_contra hr
      exact hf (.inr (.inr (by simpa using hr)))

theorem after_ended (hs : rec.settles) (hst : rec.session.lastRfqStatus = .idle) (b : Bool) :
    (rec.after cfg b).ts = .default := by
  simp only [Recording.settles, Bool.and_eq_true, Bool.not_eq_true', Bool.and_eq_false_iff,
    beq_eq_false_iff_ne] at hs
  obtain ⟨⟨hr, hc⟩, hi⟩ := hs
  unfold after trAfterResponse
  rw [if_neg (by simp [hr]), if_neg (by simp [hc])]
  dsimp only
  rw [if_neg, if_pos (show (settle _ _ rec.session).lastRfqStatus = .idle from hst)]
  rintro (hu | ⟨-, hid⟩)
  · rw [show (settle _ _ rec.session).recordTx = rec.session.recordTx from rfl, hr] at hu
    cases hu
  · exact hi.elim (absurd hst) (absurd hid)

/-- With an entry that the budget was asked for, what is chargeable is within what it
granted. -/
theorem chargeable_asked {retained : Nat} (ha : rec.asks cfg = some retained) (b : Bool) :
    tenantChargeable rec.session.mode (rec.after cfg b).ts (rec.after cfg b).ts.replayBytes ≤
      if b then retained else 0 := by
  unfold asks at ha
  split at ha
  case isFalse => cases ha
  case isTrue hr =>
    rw [Bool.and_eq_true, bne_iff_ne] at hr
    dsimp only at ha
    split at ha
    · cases ha
    next hs =>
    split at ha
    · cases ha
    cases ha
    obtain ⟨s, hsa, hst, ht⟩ := @after_recorded cfg rec hr.1 hr.2 b
    have hb := @record_bytes cfg { rec.response with reserves := b } rec.session.prevStatus
      (rec.sql.getD []) (rec.extendedKind.getD (trClassify cfg.allowsCall (rec.sql.getD []))) rec.entry
      rec.entryBytes s (if rec.session.prevStatus = .idle then .opened else rec.session.ts)
    rw [← hsa, hst, ht] at hb
    rcases hb with hzero | ⟨hw, ⟨hg, -⟩ | ⟨-, hgr, hm, -⟩⟩
    · rw [hzero, chargeable_zero]
      exact Nat.zero_le _
    · exact absurd hg hs
    · obtain rfl : b := hgr
      rw [if_pos rfl, hm]
      refine chargeable_mono (le_of_eq ?_) fun hwr => .inl (hw.trans hwr)
      rw [noted, TransactionState.noteKind_replayBytes]

theorem chargeable_unasked (hs : rec.settles) (hu : rec.asks cfg = none) (b : Bool) :
    tenantChargeable rec.session.mode (rec.after cfg b).ts (rec.after cfg b).ts.replayBytes ≤
      tenantChargeable rec.session.mode rec.session.ts rec.session.ts.replayBytes := by
  by_cases hi : rec.session.lastRfqStatus = .idle
  · rw [after_ended hs hi, TransactionState.default, chargeable_zero]
    exact Nat.zero_le _
  obtain ⟨s, hsa, hst, ht⟩ := @after_recorded cfg rec hs hi b
  have hb := @record_bytes cfg { rec.response with reserves := b } rec.session.prevStatus
    (rec.sql.getD []) (rec.extendedKind.getD (trClassify cfg.allowsCall (rec.sql.getD []))) rec.entry
    rec.entryBytes s (if rec.session.prevStatus = .idle then .opened else rec.session.ts)
  rw [← hsa, hst, ht] at hb
  rcases hb with hzero | ⟨hw, ⟨-, hk⟩ | ⟨hun, -, -, hf⟩⟩
  · rw [hzero, chargeable_zero]
    exact Nat.zero_le _
  · rw [hk]
    split at hk
    · next ho =>
      rw [if_pos ho, TransactionState.opened, TransactionState.default, chargeable_zero]
      exact Nat.zero_le _
    · next ho =>
      rw [if_neg ho] at hw ⊢
      exact chargeable_mono le_rfl fun hwr => .inl (hw.trans (noteKind_hasWrites _ hwr))
  · have hun : (rec.noted cfg).nonReplayable = false := hun
    have hb : (rec.noted cfg).replayBytes =
        (if rec.session.prevStatus = .idle then TransactionState.opened else rec.session.ts).replayBytes :=
      TransactionState.noteKind_replayBytes _ _
    have hsta : (rec.noted cfg).statements =
        (if rec.session.prevStatus = .idle then TransactionState.opened else rec.session.ts).statements :=
      TransactionState.noteKind_statements _ _
    unfold asks at hu
    rw [if_pos (by simp [hs, hi])] at hu
    dsimp only at hu
    rw [if_neg (by simp [hun]), if_neg (by rw [hb, hsta]; exact hf)] at hu
    cases hu

theorem after_releases (hr : rec.releases) (b : Bool) : (rec.after cfg b).ts.replayBytes = 0 := by
  simp only [Recording.releases, Bool.and_eq_true, Bool.or_eq_true, bne_iff_ne] at hr
  obtain ⟨⟨hre, hc⟩, hi⟩ := hr
  unfold after trAfterResponse
  rw [if_neg (by simp [hre]), if_pos hc, if_pos ⟨hre, hi⟩]
  rfl

end Recording

/-! ## The sessions of a tenant -/

/-- The places that give a transaction's history up and return the whole charge. -/
inductive Release
  /-- `tr_clear_tx`, and the `Sync` behind a chunk that was dropped. -/
  | cleared
  /-- A `COPY` has drained. -/
  | drained (idle : Bool)
  /-- A `Flush` whose projection does not fit. -/
  | flushed

def Release.apply (ts : TransactionState) : Release → TransactionState
  | .cleared | .drained true => .default
  | .drained false => { ts.giveUp with inTransaction := true, hasWrites := true, readOnly := false }
  | .flushed => ts.giveUpAtCap

inductive Stage
  | rest
  /-- Inside a recording that waits for what the budget answers. -/
  | asked (rec : Recording)
  | settling
  /-- The charge is being dropped. -/
  | ending
  | ended

structure Holder where
  mode : TrMode
  ts : TransactionState
  charge : TenantCharge
  stage : Stage

def Holder.new (mode : TrMode) : Holder := ⟨mode, .default, ⟨0, .none⟩, .rest⟩

inductive Action
  /-- A response is recorded. -/
  | respond (rec : Recording)
  | release (r : Release)
  | tick (spurious : Bool)
  /-- The call has returned, and the session goes on. -/
  | resume
  /-- The session ends, be it by a panic in front of the settling. -/
  | drop

structure World (ι : Type*) where
  budget : TenantBudget
  sessions : ι → Holder

section Sessions

variable (cfg : Settings) (limit : Nat)

namespace Holder

/-- Set the charge to what is chargeable of `ts`. -/
def settleTo (h : Holder) (ts : TransactionState) : Holder :=
  { h with
    ts
    charge := h.charge.replaySettle limit (tenantChargeable h.mode ts ts.replayBytes)
    stage := .settling }

def releaseTo (h : Holder) (ts : TransactionState) (stage : Stage) : Holder :=
  { h with ts, charge := h.charge.replaySettle limit 0, stage }

/-- `rec`, of this session. -/
def own (h : Holder) (rec : Recording) : Recording :=
  { rec with session := { rec.session with ts := h.ts, mode := h.mode } }

def respond (h : Holder) (rec : Recording) : Holder :=
  match rec.asks cfg with
  | some retained => { h with charge := h.charge.replayReserve limit retained, stage := .asked rec }
  | none =>
    if rec.settles then h.settleTo limit (rec.after cfg true).ts
    else if rec.releases then h.releaseTo limit (rec.after cfg true).ts .settling
    else h

def act (b : TenantBudget) (h : Holder) : Action → Option (TenantBudget × Holder)
  | .respond rec =>
    match h.stage with
    | .rest => some (b, h.respond cfg limit (h.own rec))
    | _ => none
  | .release r =>
    match h.stage with
    | .rest => some (b, h.releaseTo limit (r.apply h.ts) .settling)
    | _ => none
  | .tick spurious => (h.charge.tick limit spurious b).map fun (b, charge) => (b, { h with charge })
  | .resume =>
    match h.stage, h.charge.call with
    | .asked rec, .returned ok => some (b, h.settleTo limit (rec.after cfg ok).ts)
    | .settling, .returned _ => some (b, { h with charge.call := .none, stage := .rest })
    | .ending, .returned _ => some (b, { h with charge.call := .none, stage := .ended })
    | _, _ => none
  | .drop =>
    match h.stage, h.charge.call with
    | .rest, _ | .asked _, .returned _ | .settling, .returned _ => some (b, h.releaseTo limit h.ts .ending)
    | _, _ => none

end Holder

variable {ι : Type*} [DecidableEq ι]

def World.step (w : World ι) (a : ι × Action) : Option (World ι) :=
  ((w.sessions a.1).act cfg limit w.budget a.2).map fun (budget, h) =>
    ⟨budget, update w.sessions a.1 h⟩

def World.start (modes : ι → TrMode) : World ι := ⟨⟨0, 0⟩, fun i => .new (modes i)⟩

end Sessions

/-! ## What a session holds of the counter -/

/-- The part of the counter that a call has taken and not yet put into the charge, or out
of the charge and not yet back. -/
def TenantCharge.pending (c : TenantCharge) : Nat :=
  match c.call with
  | .storing retained => retained - c.replayCharged
  | .subtracting amount => amount
  | _ => 0

def Holder.held (h : Holder) : Nat := h.charge.replayCharged + h.charge.pending

def TenantCharge.Ok (c : TenantCharge) : Prop :=
  match c.call with
  | .loading retained | .trying retained _ | .storing retained => c.replayCharged < retained
  | .swapping retained => retained ≤ c.replayCharged
  | .adding _ => False
  | _ => True

def TenantCharge.goal (c : TenantCharge) : Nat :=
  match c.call with
  | .loading retained | .trying retained _ | .storing retained | .swapping retained => retained
  | _ => c.replayCharged

/-- The call is one of `replay_settle`. -/
def Call.isSettle : Call → Bool
  | .swapping _ | .subtracting _ | .returned _ => true
  | _ => false

section Tick

variable {limit : Nat} {spurious : Bool} {b b' : TenantBudget} {c c' : TenantCharge}

/-- What an atomic operation does to a charge that is in order: the counter moves by what
the session holds, up to the limit or down. -/
theorem TenantCharge.tick_spec (hok : c.Ok) (hb : b.replayInUse < usizeRange)
    (he : c.pending ≤ b.replayInUse) (hs : c.tick limit spurious b = some (b', c')) :
    c'.Ok ∧
      b'.replayInUse + (c.replayCharged + c.pending) = b.replayInUse + (c'.replayCharged + c'.pending) ∧
      (b'.replayInUse ≤ b.replayInUse ∨ b'.replayInUse ≤ limit) ∧
      (c'.goal = c.goal ∨ c'.call = .refusing ∨ c.call = .refusing ∧ c'.call = .returned false) ∧
      (c.call.isSettle → c'.call.isSettle ∧ c'.goal = c.goal) := by
  obtain ⟨charged, call⟩ := c
  unfold TenantCharge.tick at hs
  cases call with
  | none | returned => cases hs
  | loading retained =>
    cases hs
    exact ⟨hok, rfl, .inl le_rfl, .inl rfl, fun hse => (by cases hse)⟩
  | trying retained used =>
    simp only [Ok] at hok
    dsimp only at hs
    split at hs
    case isTrue hf =>
      split at hs
      case isTrue hex =>
        cases hs
        refine ⟨hok, ?_, .inr hf.2, .inl rfl, fun hse => (by cases hse)⟩
        simp only [pending]
        omega
      case isFalse =>
        cases hs
        exact ⟨hok, rfl, .inl le_rfl, .inl rfl, fun hse => (by cases hse)⟩
    case isFalse =>
      cases hs
      exact ⟨trivial, rfl, .inl le_rfl, .inr (.inl rfl), fun hse => (by cases hse)⟩
  | storing retained =>
    cases hs
    simp only [Ok] at hok
    refine ⟨trivial, ?_, .inl le_rfl, .inl rfl, fun hse => (by cases hse)⟩
    simp only [pending]
    omega
  | refusing =>
    cases hs
    exact ⟨trivial, rfl, .inl le_rfl, .inr (.inr ⟨rfl, rfl⟩), fun hse => (by cases hse)⟩
  | swapping retained =>
    simp only [Ok] at hok
    cases hs
    dsimp only
    rw [if_neg (by omega)]
    split
    case isTrue hl =>
      refine ⟨trivial, ?_, .inl le_rfl, .inl rfl, fun _ => ⟨rfl, rfl⟩⟩
      simp only [pending]
      omega
    case isFalse hsa =>
      refine ⟨trivial, ?_, .inl le_rfl, .inl rfl, fun _ => ⟨rfl, rfl⟩⟩
      simp only [pending]
      omega
  | adding amount => exact hok.elim
  | subtracting amount =>
    cases hs
    simp only [pending] at he
    have hr : (b.replayInUse + usizeRange - amount) % usizeRange = b.replayInUse - amount := by
      rw [show b.replayInUse + usizeRange - amount = b.replayInUse - amount + usizeRange by omega,
        Nat.add_mod_right, Nat.mod_eq_of_lt (by omega)]
    simp only [pending, hr]
    refine ⟨trivial, by omega, .inl (by omega), .inl rfl, fun _ => ⟨rfl, rfl⟩⟩

end Tick

/-! ## The invariant -/

section Invariant

variable (cfg : Settings) (limit : Nat)

def Holder.StageOk (h : Holder) : Prop :=
  match h.stage with
  | .rest => h.charge.call = .none ∧
      tenantChargeable h.mode h.ts h.ts.replayBytes ≤ h.charge.replayCharged
  | .asked rec => rec.session.mode = h.mode ∧ ∃ retained, rec.asks cfg = some retained ∧
      (h.charge.call = .refusing ∨ h.charge.call = .returned false ∨ retained ≤ h.charge.goal)
  | .settling => h.charge.call.isSettle = true ∧
      tenantChargeable h.mode h.ts h.ts.replayBytes ≤ h.charge.goal
  | .ending => h.charge.call.isSettle = true ∧ h.charge.goal = 0
  | .ended => h.charge.call = .none ∧ h.charge.replayCharged = 0

structure Holder.Ok (h : Holder) : Prop where
  charge : h.charge.Ok
  stage : limit ≠ 0 → h.StageOk cfg
  unlimited : limit = 0 → h.charge.replayCharged = 0 ∧ (h.charge.call = .none ∨ ∃ r, h.charge.call = .returned r)

variable {cfg limit} {h : Holder}

def TenantCharge.Quiet (c : TenantCharge) : Prop := c.call = .none ∨ ∃ r, c.call = .returned r

theorem TenantCharge.Quiet.pending {c : TenantCharge} (hq : c.Quiet) : c.pending = 0 := by
  unfold TenantCharge.pending
  rcases hq with hc | ⟨r, hc⟩
  · rw [hc]
  · rw [hc]

theorem Holder.held_eq_zero (hok : h.Ok cfg limit) (he : h.stage = .ended) : h.held = 0 := by
  have hq : h.charge.Quiet ∧ h.charge.replayCharged = 0 := by
    by_cases hu : limit = 0
    · exact ⟨(hok.unlimited hu).2, (hok.unlimited hu).1⟩
    · have hs := hok.stage hu
      unfold StageOk at hs
      rw [he] at hs
      exact ⟨.inl hs.1, hs.2⟩
  rw [held, hq.1.pending, hq.2]

theorem TenantCharge.replaySettle_pending (c : TenantCharge) (n : Nat) : (c.replaySettle limit n).pending = 0 := by
  unfold replaySettle
  split <;> rfl

variable {h' : Holder}

section

variable (hok : h.Ok cfg limit)
include hok

theorem Holder.settled_ok {n : Nat}
    (hch : h'.charge = h.charge.replaySettle limit n) (hle : limit ≠ 0 → n ≤ h.charge.replayCharged)
    (hs : limit ≠ 0 → h'.charge.call.isSettle → h'.charge.goal = n → h'.StageOk cfg) :
    h'.Ok cfg limit := by
  by_cases hu : limit = 0
  · have hc : h'.charge = { h.charge with call := .returned true } := by
      rw [hch, TenantCharge.replaySettle, if_pos hu]
    refine ⟨?_, fun hl => absurd hu hl, fun _ => ?_⟩
    · rw [hc]
      trivial
    · rw [hc]
      exact ⟨(hok.unlimited hu).1, .inr ⟨true, rfl⟩⟩
  · have hc : h'.charge = { h.charge with call := .swapping n } := by
      rw [hch, TenantCharge.replaySettle, if_neg hu]
    refine ⟨?_, fun hl => hs hl ?_ ?_, fun hzero => absurd hzero hu⟩
    · rw [hc]
      exact hle hu
    · rw [hc]
      rfl
    · rw [hc]
      rfl

theorem Holder.settleTo_ok {ts : TransactionState}
    (hle : limit ≠ 0 → tenantChargeable h.mode ts ts.replayBytes ≤ h.charge.replayCharged) :
    (h.settleTo limit ts).Ok cfg limit :=
  settled_ok hok rfl hle fun _ hs hg => ⟨hs, le_of_eq hg.symm⟩

theorem Holder.released_ok {ts : TransactionState} (hn : ts.replayBytes = 0) :
    (h.releaseTo limit ts .settling).Ok cfg limit := by
  refine settled_ok hok rfl (fun _ => Nat.zero_le _) fun _ hs hg => ⟨hs, ?_⟩
  show tenantChargeable h.mode ts ts.replayBytes ≤ _
  rw [hn, Recording.chargeable_zero]
  exact Nat.zero_le _

theorem Holder.dropped_ok : (h.releaseTo limit h.ts .ending).Ok cfg limit :=
  settled_ok hok rfl (fun _ => Nat.zero_le _) fun _ hs hg => ⟨hs, hg⟩

end

theorem Release.apply_bytes (r : Release) (ts : TransactionState) : (r.apply ts).replayBytes = 0 := by
  rcases r with _ | (_ | _) | _ <;> rfl

theorem Holder.quiet_of_rest (hok : h.Ok cfg limit) (hr : h.stage = .rest) : h.charge.Quiet := by
  by_cases hu : limit = 0
  · exact (hok.unlimited hu).2
  · have hs := hok.stage hu
    unfold StageOk at hs
    rw [hr] at hs
    exact .inl hs.1

variable {rec : Recording}

theorem Holder.reserved_ok {retained : Nat} (hok : h.Ok cfg limit)
    (hm : rec.session.mode = h.mode) (ha : rec.asks cfg = some retained) :
    Holder.Ok cfg limit { h with charge := h.charge.replayReserve limit retained, stage := .asked rec } := by
  unfold TenantCharge.replayReserve
  split
  case isTrue hu =>
    exact ⟨trivial, fun hl => absurd hu hl,
      fun _ => ⟨(hok.unlimited hu).1, .inr ⟨true, rfl⟩⟩⟩
  case isFalse hl =>
    split
    case isTrue hle =>
      exact settled_ok hok rfl (fun _ => hle) fun _ _ hg =>
        ⟨hm, retained, ha, .inr (.inr (le_of_eq hg.symm))⟩
    case isFalse hmo =>
      exact ⟨Nat.lt_of_not_le hmo, fun _ => ⟨hm, retained, ha, .inr (.inr le_rfl)⟩,
        fun hu => absurd hu hl⟩

theorem Holder.respond_ok (hok : h.Ok cfg limit) (hr : h.stage = .rest)
    (hm : rec.session.mode = h.mode) (ht : rec.session.ts = h.ts) : (h.respond cfg limit rec).Ok cfg limit := by
  unfold respond
  split
  case h_1 retained ha => exact reserved_ok hok hm ha
  case h_2 hu =>
    split
    case isTrue hse =>
      refine settleTo_ok hok fun hl => ?_
      have hs := hok.stage hl
      unfold StageOk at hs
      rw [hr] at hs
      have hle := Recording.chargeable_unasked hse hu true
      rw [hm, ht] at hle
      exact hle.trans hs.2
    case isFalse =>
      split
      case isTrue hre => exact released_ok hok (Recording.after_releases hre true)
      case isFalse => exact hok

theorem Holder.respond_held (hq : h.charge.Quiet) :
    (h.respond cfg limit rec).held = h.held := by
  unfold respond held
  rw [hq.pending]
  split
  case h_1 retained ha =>
    unfold TenantCharge.replayReserve
    split
    · rfl
    · split
      · exact congrArg (h.charge.replayCharged + ·) (h.charge.replaySettle_pending retained)
      · rfl
  case h_2 =>
    split
    · exact congrArg (h.charge.replayCharged + ·) (h.charge.replaySettle_pending _)
    split
    · exact congrArg (h.charge.replayCharged + ·) (h.charge.replaySettle_pending _)
    · rw [hq.pending]

theorem Holder.held_settled {n : Nat} (hq : h.charge.Quiet)
    (hc : h'.charge = h.charge.replaySettle limit n) : h'.held = h.held := by
  rw [held, held, hq.pending, hc, TenantCharge.replaySettle_pending]
  rfl

theorem Holder.resumed_ok {r : Bool} (hok : h.Ok cfg limit) (has : h.stage = .asked rec)
    (hr : h.charge.call = .returned r) : (h.settleTo limit (rec.after cfg r).ts).Ok cfg limit := by
  refine settleTo_ok hok fun hl => ?_
  have hs := hok.stage hl
  unfold StageOk at hs
  rw [has] at hs
  obtain ⟨hm, retained, hask, ha⟩ := hs
  have hle := Recording.chargeable_asked hask r
  rw [hm] at hle
  refine hle.trans ?_
  cases r with
  | false => exact Nat.zero_le _
  | true =>
    rw [hr] at ha
    rcases ha with hre | href | hc
    · cases hre
    · cases href
    · rw [TenantCharge.goal, hr] at hc
      exact hc

theorem TenantCharge.Quiet.tick {c : TenantCharge} (hq : c.Quiet) (spurious : Bool) (b : TenantBudget) :
    c.tick limit spurious b = none := by
  unfold TenantCharge.tick
  rcases hq with hc | ⟨r, hc⟩
  · rw [hc]
  · rw [hc]

theorem Holder.tick_ok {spurious : Bool} {b b' : TenantBudget} {c' : TenantCharge} (hok : h.Ok cfg limit)
    (hbo : b.replayInUse < usizeRange) (he : h.charge.pending ≤ b.replayInUse)
    (hst : h.charge.tick limit spurious b = some (b', c')) :
    Holder.Ok cfg limit { h with charge := c' } := by
  obtain ⟨hc, -, -, hg, hset⟩ := TenantCharge.tick_spec hok.charge hbo he hst
  have hb (hq : h.charge.Quiet) : False := by
    rw [hq.tick] at hst
    cases hst
  refine ⟨hc, fun hl => ?_, fun hu => (hb (hok.unlimited hu).2).elim⟩
  have hs := hok.stage hl
  unfold StageOk at hs ⊢
  cases ha' : h.stage with
  | rest | ended =>
    rw [ha'] at hs
    exact (hb (.inl hs.1)).elim
  | asked rec =>
    rw [ha'] at hs
    obtain ⟨hm, retained, ha, han⟩ := hs
    refine ⟨hm, retained, ha, ?_⟩
    rcases han with hr | hre | hco
    · rw [TenantCharge.tick, hr] at hst
      cases hst
      exact .inr (.inl rfl)
    · exact (hb (.inr ⟨false, hre⟩)).elim
    · rcases hg with hsa | hr | ⟨-, hre⟩
      · exact .inr (.inr (hsa ▸ hco))
      · exact .inl hr
      · exact .inr (.inl hre)
  | settling =>
    rw [ha'] at hs
    obtain ⟨hse, hsa⟩ := hset hs.1
    exact ⟨hse, hsa ▸ hs.2⟩
  | ending =>
    rw [ha'] at hs
    obtain ⟨hse, hsa⟩ := hset hs.1
    exact ⟨hse, hsa.trans hs.2⟩

theorem Holder.rested_ok {r : Bool} (hok : h.Ok cfg limit) (hr : h.charge.call = .returned r)
    {stage : Stage} (ha' : h.stage = .settling ∧ stage = .rest ∨ h.stage = .ending ∧ stage = .ended) :
    Holder.Ok cfg limit { h with charge.call := .none, stage } := by
  refine ⟨trivial, fun hl => ?_, fun hu => ⟨(hok.unlimited hu).1, .inl rfl⟩⟩
  have hb := hok.stage hl
  unfold StageOk at hb
  have hg : h.charge.goal = h.charge.replayCharged := by rw [TenantCharge.goal, hr]
  rcases ha' with ⟨hs, rfl⟩ | ⟨he, rfl⟩
  · rw [hs] at hb
    exact ⟨rfl, hg ▸ hb.2⟩
  · rw [he] at hb
    exact ⟨rfl, hg ▸ hb.2⟩

theorem Holder.act_spec {a : Action} {b b' : TenantBudget} (hok : h.Ok cfg limit)
    (hb : b.replayInUse < usizeRange) (he : h.charge.pending ≤ b.replayInUse)
    (hs : h.act cfg limit b a = some (b', h')) :
    h'.Ok cfg limit ∧ b'.replayInUse + h.held = b.replayInUse + h'.held ∧
      (b'.replayInUse ≤ b.replayInUse ∨ b'.replayInUse ≤ limit) := by
  -- all but the atomic operations leave the counter alone
  have hst {x : Holder} (ho' : x.Ok cfg limit) (hsa : x.held = h.held) (hm : some (b, x) = some (b', h')) :
      h'.Ok cfg limit ∧ b'.replayInUse + h.held = b.replayInUse + h'.held ∧
        (b'.replayInUse ≤ b.replayInUse ∨ b'.replayInUse ≤ limit) := by
    cases hm
    exact ⟨ho', by rw [hsa], .inl le_rfl⟩
  cases a with
  | respond rec =>
    simp only [act] at hs
    split at hs
    case h_1 hre =>
      exact hst (respond_ok hok hre rfl rfl) (respond_held (quiet_of_rest hok hre)) hs
    case h_2 => cases hs
  | release r =>
    simp only [act] at hs
    split at hs
    case h_1 hre =>
      exact hst (released_ok hok (r.apply_bytes h.ts)) (held_settled (quiet_of_rest hok hre) rfl) hs
    case h_2 => cases hs
  | tick spurious =>
    obtain ⟨⟨b₁, c'⟩, ht, ⟨⟩⟩ := Option.map_eq_some_iff.mp hs
    obtain ⟨-, hm, hl, -, -⟩ := TenantCharge.tick_spec hok.charge hb he ht
    exact ⟨tick_ok hok hb he ht, hm, hl⟩
  | resume =>
    simp only [act] at hs
    split at hs
    case h_1 rec r ha hr =>
      exact hst (resumed_ok hok ha hr) (held_settled (.inr ⟨r, hr⟩) rfl) hs
    case h_2 r hse hr =>
      have hq : h.charge.Quiet := .inr ⟨r, hr⟩
      exact hst (rested_ok hok hr (.inl ⟨hse, rfl⟩)) (by rw [held, held, hq.pending]; rfl) hs
    case h_3 r hen hr =>
      have hq : h.charge.Quiet := .inr ⟨r, hr⟩
      exact hst (rested_ok hok hr (.inr ⟨hen, rfl⟩)) (by rw [held, held, hq.pending]; rfl) hs
    case h_4 => cases hs
  | drop =>
    simp only [act] at hs
    split at hs
    case h_1 hre => exact hst (dropped_ok hok) (held_settled (quiet_of_rest hok hre) rfl) hs
    case h_2 hr => exact hst (dropped_ok hok) (held_settled (.inr ⟨_, hr⟩) rfl) hs
    case h_3 hr => exact hst (dropped_ok hok) (held_settled (.inr ⟨_, hr⟩) rfl) hs
    case h_4 => cases hs

variable {ι : Type*} [Fintype ι]

variable (cfg limit) in
structure World.Inv (w : World ι) : Prop where
  sessions : ∀ i, (w.sessions i).Ok cfg limit
  exact : w.budget.replayInUse = total Holder.held w.sessions
  within : w.budget.replayInUse ≤ limit

theorem World.Inv.pending_le {w : World ι} (hi : w.Inv cfg limit) (i : ι) :
    (w.sessions i).charge.pending ≤ w.budget.replayInUse := by
  rw [hi.exact]
  exact le_trans (Nat.le_add_left _ _) (held_le_total Holder.held w.sessions i)

theorem World.Inv.step [DecidableEq ι] {w w' : World ι} {a : ι × Action} (hr : limit < usizeRange) (hi : w.Inv cfg limit)
    (hst : w.step cfg limit a = some w') : w'.Inv cfg limit := by
  obtain ⟨i, a⟩ := a
  obtain ⟨⟨b', h'⟩, ha, rfl⟩ := Option.map_eq_some_iff.mp hst
  obtain ⟨hok, hm, hl⟩ :=
    Holder.act_spec (hi.sessions i) (hi.within.trans_lt hr) (hi.pending_le i) ha
  have hh := total_update Holder.held w.sessions i h'
  have he := hi.exact
  have hw := hi.within
  refine ⟨fun j => ?_, ?_, ?_⟩
  · show Holder.Ok cfg limit (update w.sessions i h' j)
    by_cases hs : j = i
    · subst hs
      rw [update_self]
      exact hok
    · rw [update_of_ne hs]
      exact hi.sessions j
  · show b'.replayInUse = total Holder.held (update w.sessions i h')
    omega
  · show b'.replayInUse ≤ limit
    omega

theorem World.Inv.start (modes : ι → TrMode) : (World.start modes).Inv cfg limit := by
  refine ⟨fun i => ⟨trivial, fun _ => ⟨rfl, ?_⟩, fun _ => ⟨rfl, .inl rfl⟩⟩, ?_, Nat.zero_le _⟩
  · exact Nat.le_of_eq (Recording.chargeable_zero _ _)
  · exact (total_eq_zero fun i => rfl).symm

/-- In every run of the sessions of a tenant the counter is what they hold, with the amounts
that a call has moved in part, no subtraction goes below zero, and the limit is kept; it is
zero once all have ended. -/
theorem replayInUse_exact [DecidableEq ι] (hrange : limit < usizeRange) {modes : ι → TrMode} {as : List (ι × Action)}
    {w : World ι} (hran : run (World.step cfg limit) (.start modes) as = some w) :
    w.budget.replayInUse =
        ∑ i, ((w.sessions i).charge.replayCharged + (w.sessions i).charge.pending) ∧
      (∀ i amount, (w.sessions i).charge.call = .subtracting amount → amount ≤ w.budget.replayInUse) ∧
      w.budget.replayInUse ≤ limit ∧
      ((∀ i, (w.sessions i).stage = .ended) → w.budget.replayInUse = 0) := by
  have hinv : w.Inv cfg limit :=
    run_invariant (fun _ _ _ hinv hstepped => hinv.step hrange hstepped) (.start modes) hran
  refine ⟨hinv.exact, fun i amount hcall => ?_, hinv.within, fun hended => ?_⟩
  · have hle := hinv.pending_le i
    rwa [TenantCharge.pending, hcall] at hle
  · rw [hinv.exact]
    exact total_eq_zero fun i => Holder.held_eq_zero (hinv.sessions i) (hended i)

end Invariant

/-- A write of `bytes` bytes behind a `BEGIN`. -/
def sampleWrite (bytes : Nat) : Recording where
  session := { Session.new .transaction with lastRfqStatus := .inBlock }
  response := ⟨.inBlock, false, 0, false, false, true, []⟩
  sql := none
  extendedKind := some .write
  entry := ⟨[], none, none⟩
  entryBytes := bytes

/-- Two sessions ask for 45 and 30 of 64 bytes at once; one is refused, and both end. -/
def sampleSteps : List (Bool × Action) :=
  [(true, .respond (sampleWrite 45)), (true, .tick false), (false, .respond (sampleWrite 30)),
    (false, .tick false), (true, .tick false), (false, .tick false), (false, .tick false),
    (true, .tick false), (true, .resume), (false, .tick false), (false, .resume), (true, .tick false),
    (true, .resume), (false, .tick false), (false, .resume), (true, .drop), (false, .drop),
    (true, .tick false), (false, .tick false), (true, .tick false), (true, .resume), (false, .resume)]

def sampleLimits : Settings := ⟨100, 100, 10000, fun _ => false, fun _ => []⟩

theorem replayInUse_exact_two :
    ∃ w, run (World.step sampleLimits 64) (.start fun _ => .transaction) sampleSteps = some w ∧
      w.budget.replayRefusals = 1 ∧ w.budget.replayInUse = 0 := by
  refine ⟨_, rfl, rfl, ?_⟩
  have hran : run (World.step sampleLimits 64) (.start fun _ => .transaction) sampleSteps = some _ := rfl
  refine (replayInUse_exact (by decide) hran).2.2.2 fun i => ?_
  cases i
  · rfl
  · rfl

end HeliosProxy.Tenancy
