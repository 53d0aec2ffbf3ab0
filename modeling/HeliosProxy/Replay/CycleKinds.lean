import HeliosProxy.Replay.Cycle

/-!
# The kind of a cycle and the statements it runs

A backend keeps a definition under each statement name and each portal name: a
`Bind` gives the portal the definition its statement has at that point, and what
becomes of the statement later is nothing to the portal.  The scan of a cycle
follows the same rules with kinds in the place of definitions, so that the two
are compared frame by frame.
-/

namespace HeliosProxy.Replay

open Text List Option

/-! ## Statements and portals -/

structure Names (α : Type) where
  statements : WireStr → Option α
  portals : WireStr → Option α

/-- `m` with `v` under the name `n`. -/
def assign {α : Type} (m : WireStr → Option α) (n : WireStr) (v : Option α) : WireStr → Option α :=
  fun n' => if n' = n then v else m n'

namespace Names

variable {α β : Type}

/-- The names behind a frame, where a text that is parsed defines what `read` says. -/
def after (read : WireStr → Option α) (d : Names α) : FrameBody → Names α
  | .parse name sql => { d with statements := assign d.statements name (read sql) }
  | .bind portal name => { d with portals := assign d.portals portal (d.statements name) }
  | .close 'S' name => { d with statements := assign d.statements name none }
  | .close 'P' name => { d with portals := assign d.portals name none }
  | _ => d

/-- The definitions the `Execute`s of the frames are for, in order; `none` for one of a
portal without any. -/
def executes (read : WireStr → Option α) : Names α → List Frame → List (Option α)
  | _, [] => []
  | d, f :: fs =>
    match f.body with
    | .execute portal => d.portals portal :: executes read d fs
    | body => executes read (d.after read body) fs

/-- Everything the names of `d` and `e` both define is related. -/
structure Agree (R : α → β → Prop) (d : Names α) (e : Names β) : Prop where
  statements : ∀ n a b, d.statements n = some a → e.statements n = some b → R a b
  portals : ∀ n a b, d.portals n = some a → e.portals n = some b → R a b

theorem agree_assign {R : α → β → Prop} {m : WireStr → Option α} {m' : WireStr → Option β}
    (hag : ∀ n a b, m n = some a → m' n = some b → R a b) {n : WireStr} {v : Option α}
    {w : Option β} (hn : ∀ a b, v = some a → w = some b → R a b) :
    ∀ n' a b, assign m n v n' = some a → assign m' n w n' = some b → R a b := by
  intro n' a b ha hb
  rw [assign] at ha hb
  split at ha
  case isTrue hs =>
    rw [if_pos hs] at hb
    exact hn a b ha hb
  case isFalse ho =>
    rw [if_neg ho] at hb
    exact hag n' a b ha hb

variable {R : α → β → Prop} {read : WireStr → Option α} {read' : WireStr → Option β}

section

variable (hre : ∀ sql a b, read sql = some a → read' sql = some b → R a b)
include hre

theorem Agree.after {d : Names α} {e : Names β} (ha : d.Agree R e) (body : FrameBody) :
    (d.after read body).Agree R (e.after read' body) := by
  have hg : ∀ (a : α) (b : β), (none : Option α) = some a → (none : Option β) = some b → R a b :=
    fun _ _ h => absurd h (by simp)
  unfold Names.after
  split
  case h_1 name sql => exact ⟨agree_assign ha.statements (hre sql), ha.portals⟩
  case h_2 portal name => exact ⟨ha.statements, agree_assign ha.portals (ha.statements name)⟩
  case h_3 name => exact ⟨agree_assign ha.statements hg, ha.portals⟩
  case h_4 name => exact ⟨ha.statements, agree_assign ha.portals hg⟩
  case h_5 => exact ha

theorem Agree.executes (fs : List Frame) : ∀ {d : Names α} {e : Names β}, d.Agree R e →
      Forall₂ (fun x y => ∀ a b, x = some a → y = some b → R a b)
        (d.executes read fs) (e.executes read' fs) := by
  induction fs with
  | nil => exact fun _ => .nil
  | cons f fs ih =>
    intro d e ha
    unfold Names.executes
    split
    case h_1 portal _ => exact .cons (ha.portals portal) (ih ha)
    case h_2 => exact ih (ha.after hre _)

end

theorem executes_take_prefix (read : WireStr → Option α) (fs : List Frame) (n : Nat) :
    ∀ d : Names α, d.executes read (fs.take n) <+: d.executes read fs := by
  induction fs generalizing n with
  | nil => intro d; simp
  | cons f fs ih =>
    intro d
    cases n with
    | zero => exact nil_prefix
    | succ n =>
      unfold Names.executes
      rw [take_succ_cons]
      simp only
      split
      case h_1 => exact cons_prefix_cons.mpr ⟨rfl, ih n d⟩
      case h_2 => exact ih n _

end Names

/-! ## Kinds -/

def StmtKind.rank : StmtKind → Nat
  | .control => 0
  | .read => 1
  | .write | .other => 2
  | .commit => 3

theorem StmtKind.rank_le_commit (k : StmtKind) : k.rank ≤ StmtKind.commit.rank := by
  cases k <;> decide

theorem rank_joinKinds (k k' : StmtKind) : (joinKinds k k').rank = max k.rank k'.rank := by
  cases k <;> cases k' <;> rfl

def joined (ks : List StmtKind) : StmtKind := ks.foldl joinKinds .control

theorem rank_foldl_joinKinds_le {n : Nat} (ks : List StmtKind) :
    ∀ k, (ks.foldl joinKinds k).rank ≤ n ↔ k.rank ≤ n ∧ ∀ k' ∈ ks, k'.rank ≤ n := by
  induction ks with
  | nil => simp
  | cons k' ks ih =>
    intro k
    rw [foldl_cons, ih, rank_joinKinds, Nat.max_le, forall_mem_cons, and_assoc]

theorem rank_joined_le {n : Nat} {ks : List StmtKind} :
    (joined ks).rank ≤ n ↔ ∀ k ∈ ks, k.rank ≤ n := by
  rw [joined, rank_foldl_joinKinds_le]
  exact and_iff_right (Nat.zero_le n)

/-- The kind of a statement that `trClassify` reads; the text of one that is not UTF-8 is
never read. -/
def kindOf (cfg : Settings) : WireStr → StmtKind
  | .text sql => trClassify cfg.allowsCall sql
  | .raw _ => .commit

/-- What a `Parse` defines for the scan. -/
def readKind (cfg : Settings) (sql : WireStr) : Option StmtKind :=
  sql.utf8?.map (trParseKind cfg.allowsCall)

theorem rank_trClassify_le (allowsCall : Str → Bool) (sql : Str) :
    (trClassify allowsCall sql).rank ≤ (trParseKind allowsCall sql).rank := by
  unfold trParseKind
  simp only
  split
  · split
    · split
      · exact StmtKind.rank_le_commit _
      · exact le_refl _
    · exact le_refl _
  · exact le_refl _

/-! ## The scan -/

section Scan

variable (cfg : Settings) (acked : Table Str AckedStmt) (txPortals : Table Str StmtKind)

def priorNames : Names StmtKind where
  statements n := if n = unnamed then none else (n.utf8?.bind acked.get).map AckedStmt.kind
  portals n := if n = unnamed then none else n.utf8?.bind txPortals.get

namespace ScanState

def statement (st : ScanState) (n : WireStr) : Option StmtKind :=
  if n = unnamed then st.unnamedStatement
  else (st.statements.get n).getD ((n.utf8?.bind acked.get).map AckedStmt.kind)

def portal (st : ScanState) (n : WireStr) : Option StmtKind :=
  if n = unnamed then st.unnamedPortal
  else (st.portals.get n).getD (n.utf8?.bind txPortals.get)

/-- The names of the scan are those of `d`.  A portal of a statement without definition
is one that commits. -/
structure Resolves (st : ScanState) (d : Names StmtKind) : Prop where
  statements : st.statement acked = d.statements
  portals : ∀ n, (st.portal txPortals n).getD .commit = (d.portals n).getD .commit

end ScanState

theorem trPriorStatement_fst (st : ScanState) (n : WireStr) :
    (trPriorStatement acked st n).1 = (n.utf8?.bind acked.get).map AckedStmt.kind := by
  unfold trPriorStatement
  cases n.utf8? with
  | none => rfl
  | some text =>
    simp only [bind_some]
    cases acked.get text with
    | none => rfl
    | some a =>
      simp only [map_some]
      split <;> rfl

theorem trPriorStatement_snd (st : ScanState) (n : WireStr) :
    ∃ used found, (trPriorStatement acked st n).2 = { st with usedPrior := used, found := found } := by
  unfold trPriorStatement
  split
  · exact ⟨_, _, rfl⟩
  · split
    · exact ⟨_, _, rfl⟩
    · exact ⟨_, _, rfl⟩

namespace ScanState

variable (st : ScanState)

theorem statement_unnamed (v : Option StmtKind) :
    statement acked { st with unnamedStatement := v } = assign (st.statement acked) unnamed v := by
  funext n
  rw [assign, statement, statement]
  split <;> rfl

variable {name : WireStr}

theorem statement_insert (hn : name ≠ unnamed) (v : Option StmtKind) :
    statement acked { st with statements := st.statements.insert name v } =
      assign (st.statement acked) name v := by
  funext n
  rw [assign, statement, statement, Table.get_insert]
  by_cases hs : n = name
  · rw [if_pos hs, if_pos hs, if_neg (hs ▸ hn), getD_some]
  · rw [if_neg hs, if_neg hs]

theorem portal_unnamed (v : Option StmtKind) :
    portal txPortals { st with unnamedPortal := v } = assign (st.portal txPortals) unnamed v := by
  funext n
  rw [assign, portal, portal]
  split <;> rfl

theorem portal_insert (hn : name ≠ unnamed) (v : Option StmtKind) (found : CycleScan) :
    portal txPortals { st with portals := st.portals.insert name v, found := found } =
      assign (st.portal txPortals) name v := by
  funext n
  rw [assign, portal, portal, Table.get_insert]
  by_cases hs : n = name
  · rw [if_pos hs, if_pos hs, if_neg (hs ▸ hn), getD_some]
  · rw [if_neg hs, if_neg hs]

variable {acked txPortals st}

theorem Resolves.assign_statement {d : Names StmtKind} {st' : ScanState}
    {v : Option StmtKind} (hf : st.Resolves acked txPortals d)
    (hd : st'.statement acked = assign (st.statement acked) name v)
    (hk : st'.portal txPortals = st.portal txPortals) :
    st'.Resolves acked txPortals { d with statements := assign d.statements name v } :=
  ⟨by rw [hd, hf.statements], by rw [hk]; exact hf.portals⟩

theorem Resolves.assign_portal {d : Names StmtKind} {st' : ScanState}
    {v w : Option StmtKind} (hf : st.Resolves acked txPortals d)
    (hb : st'.portal txPortals = assign (st.portal txPortals) name v)
    (hs : v.getD .commit = w.getD .commit) (hk : st'.statement acked = st.statement acked) :
    st'.Resolves acked txPortals { d with portals := assign d.portals name w } := by
  refine ⟨by rw [hk, hf.statements], fun n => ?_⟩
  rw [hb]
  simp only [assign]
  split
  · exact hs
  · exact hf.portals n

end ScanState

open ScanState

variable {cfg acked txPortals} {st st' : ScanState} {d : Names StmtKind} {f : Frame}

/-- A `Parse` the scan reads on behind. -/
theorem scanFrame_parse {name sql : WireStr} (hb : f.body = .parse name sql)
    (hs : scanFrame cfg acked txPortals st f = .ok st') :
    st'.kind = st.kind ∧ st'.portal txPortals = st.portal txPortals ∧
      st'.statement acked = assign (st.statement acked) name (readKind cfg sql) := by
  simp only [scanFrame, hb] at hs
  cases ht : sql.utf8? with
  | none => simp [ht] at hs
  | some s =>
    have hk : readKind cfg sql = some (trParseKind cfg.allowsCall s) := by rw [readKind, ht]; rfl
    simp only [ht] at hs
    rw [hk]
    split at hs
    case isTrue hh =>
      cases hs
      exact ⟨rfl, rfl, hh ▸ statement_unnamed acked st _⟩
    case isFalse hn =>
      split at hs
      · cases hs
      · split at hs
        · cases hs
        · cases hs
          exact ⟨rfl, rfl, statement_insert acked st hn _⟩

/-- A `Bind` the scan reads on behind. -/
theorem scanFrame_bind {p name : WireStr} (hb : f.body = .bind p name)
    (hs : scanFrame cfg acked txPortals st f = .ok st') :
    st'.kind = st.kind ∧ st'.statement acked = st.statement acked ∧
      st'.portal txPortals =
        assign (st.portal txPortals) p (some ((st.statement acked name).getD .commit)) := by
  rw [scanFrame, hb] at hs
  simp only at hs
  generalize hl : (if name = unnamed then (st.unnamedStatement, st) else _) = r at hs
  obtain ⟨used, found, rfl⟩ : ∃ used found,
      r = (st.statement acked name, { st with usedPrior := used, found := found }) := by
    rw [statement]
    split at hl
    case isTrue hh =>
      rw [if_pos hh]
      exact ⟨_, _, hl.symm⟩
    case isFalse hn =>
      rw [if_neg hn]
      cases hk : st.statements.get name with
      | some defined =>
        simp only [hk] at hl
        exact ⟨_, _, hl.symm⟩
      | none =>
        simp only [hk] at hl
        obtain ⟨used, found, hno⟩ := trPriorStatement_snd acked st name
        refine ⟨used, found, ?_⟩
        rw [← hl, ← hno, getD_none, ← trPriorStatement_fst acked st name]
  split at hs
  case isTrue hh =>
    cases hs
    exact ⟨rfl, rfl, hh ▸ portal_unnamed txPortals _ _⟩
  case isFalse hn =>
    split at hs
    · cases hs
    · cases hs
      exact ⟨rfl, rfl, portal_insert txPortals st hn _ found⟩

/-- An `Execute` the scan reads on behind. -/
theorem scanFrame_execute {p : WireStr} (hb : f.body = .execute p)
    (hs : scanFrame cfg acked txPortals st f = .ok st') :
    st' = { st with kind := joinKinds st.kind ((st.portal txPortals p).getD .commit) } ∧
      st'.kind ≠ .commit := by
  rw [scanFrame, hb] at hs
  simp only at hs
  generalize hl : (if p = unnamed then st.unnamedPortal else _) = k at hs
  have hf : k = st.portal txPortals p := by
    rw [← hl, portal]
    cases st.portals.get p <;> rfl
  rw [hf] at hs
  split at hs
  · cases hs
  case isFalse hg =>
    cases hs
    exact ⟨rfl, hg⟩

/-- A frame without `Execute` that the scan reads on behind. -/
theorem scanFrame_follows (hno : ∀ p, f.body ≠ .execute p)
    (hf : st.Resolves acked txPortals d)
    (hs : scanFrame cfg acked txPortals st f = .ok st') :
    st'.kind = st.kind ∧ st'.Resolves acked txPortals (d.after (readKind cfg) f.body) := by
  cases hb : f.body with
  | execute p => exact absurd hb (hno p)
  | parse name sql =>
    obtain ⟨hk, hke, hd⟩ := scanFrame_parse hb hs
    exact ⟨hk, hf.assign_statement hd hke⟩
  | bind p name =>
    obtain ⟨hk, hke, hbo⟩ := scanFrame_bind hb hs
    refine ⟨hk, hf.assign_portal hbo ?_ hke⟩
    rw [hf.statements, getD_some]
  | close target name =>
    by_cases hi : target = 'S'
    · subst hi
      rw [scanFrame, hb] at hs
      simp only at hs
      split at hs
      case isTrue hh =>
        cases hs
        exact ⟨rfl, hf.assign_statement (hh ▸ statement_unnamed acked st _) rfl⟩
      case isFalse hn =>
        cases hs
        exact ⟨rfl, hf.assign_statement (statement_insert acked st hn _) rfl⟩
    · by_cases his : target = 'P'
      · subst his
        rw [scanFrame, hb] at hs
        simp only at hs
        split at hs
        case isTrue hh =>
          cases hs
          exact ⟨rfl, hf.assign_portal (hh ▸ portal_unnamed txPortals st _) rfl rfl⟩
        case isFalse hn =>
          cases hs
          exact ⟨rfl, hf.assign_portal (portal_insert txPortals st hn _ st.found) rfl rfl⟩
      · simp [scanFrame, hb] at hs
  | describe target name =>
    have hnot : ∃ used found, st' = { st with usedPrior := used, found := found } := by
      by_cases hi : target = 'S'
      · subst hi
        rw [scanFrame, hb] at hs
        simp only at hs
        split at hs
        · cases hs
          exact trPriorStatement_snd acked st name
        · cases hs
          exact ⟨_, _, rfl⟩
      · have hu : scanFrame cfg acked txPortals st f = .ok st := by simp [scanFrame, hb]
        obtain rfl := Except.ok.inj (hu.symm.trans hs)
        exact ⟨_, _, rfl⟩
    obtain ⟨used, found, rfl⟩ := hnot
    exact ⟨rfl, hf.statements, hf.portals⟩
  | cut tag =>
    by_cases hisD : tag = 'D'
    · subst hisD
      rw [scanFrame, hb] at hs
      cases hs
      exact ⟨rfl, hf⟩
    · simp [scanFrame, hb] at hs
  | flush | sync =>
    rw [scanFrame, hb] at hs
    cases hs
    exact ⟨rfl, hf⟩
  | unknown tag =>
    rw [scanFrame, hb] at hs
    cases hs

/-- A scan that reads all of the frames has joined the kinds of what they execute, and
none of it commits. -/
theorem foldlM_scanFrame {fs : List Frame} (hf : st.Resolves acked txPortals d)
    (hg : st.kind ≠ .commit)
    (hs : fs.foldlM (scanFrame cfg acked txPortals) st = .ok st') :
    st'.kind = ((d.executes (readKind cfg) fs).map (·.getD .commit)).foldl joinKinds st.kind ∧
      st'.kind ≠ .commit := by
  induction fs generalizing st d with
  | nil =>
    cases hs
    exact ⟨rfl, hg⟩
  | cons f fs ih =>
    rw [foldlM_cons] at hs
    cases hst : scanFrame cfg acked txPortals st f with
    | error found =>
      rw [hst] at hs
      cases hs
    | ok mid =>
      rw [hst] at hs
      unfold Names.executes
      split
      case h_1 p hb =>
        obtain ⟨rfl, hg⟩ := scanFrame_execute hb hst
        rw [map_cons, ← hf.portals p]
        have hn : Resolves acked txPortals
            { st with kind := joinKinds st.kind ((st.portal txPortals p).getD .commit) } d :=
          ⟨hf.statements, hf.portals⟩
        exact ih hn hg hs
      case h_2 hno =>
        obtain ⟨hk, hf⟩ := scanFrame_follows hno hf hst
        rw [← hk]
        exact ih hf (hk ▸ hg) hs

variable (acked txPortals) in
theorem priorNames_follows :
    Resolves acked txPortals ⟨[], [], [], none, none, .control, ⟨[], []⟩⟩
      (priorNames acked txPortals) :=
  ⟨rfl, fun _ => rfl⟩

def cycleFrames (held : Option Frame) (frames : List Frame) : List Frame := held.toList ++ frames

def scannedKind : Except CycleScan ScanState → StmtKind
  | .error _ => .commit
  | .ok st => st.kind

theorem scannedKind_foldlM {fs : List Frame} (hf : st.Resolves acked txPortals d)
    (hs : st.kind = .control) :
    scannedKind (fs.foldlM (scanFrame cfg acked txPortals) st) = .commit ∨
      scannedKind (fs.foldlM (scanFrame cfg acked txPortals) st) =
        joined ((d.executes (readKind cfg) fs).map (·.getD .commit)) := by
  cases hsc : fs.foldlM (scanFrame cfg acked txPortals) st with
  | error found => exact .inl rfl
  | ok st' =>
    have hg : st.kind ≠ .commit := by rw [hs]; decide
    right
    rw [joined, ← hs]
    exact (foldlM_scanFrame hf hg hsc).1

theorem trExtendedCycleScan_fst (held : Option Frame) (frames : List Frame) :
    (trExtendedCycleScan cfg acked txPortals held frames).1 =
      scannedKind (match held.map parseMsgSql with
        | none => frames.foldlM (scanFrame cfg acked txPortals)
            ⟨[], [], [], none, none, .control, ⟨[], []⟩⟩
        | some none => .error ⟨[], []⟩
        | some (some sql) => frames.foldlM (scanFrame cfg acked txPortals)
            ⟨[], [], [], some (trParseKind cfg.allowsCall sql), none, .control, ⟨[], []⟩⟩) := by
  unfold trExtendedCycleScan
  simp only
  split
  case h_1 hs => exact (congrArg scannedKind hs).symm
  case h_2 hs => exact (congrArg scannedKind hs).symm

theorem trExtendedCycleScan_kind {held : Option Frame} (frames : List Frame)
    (hu : ∀ f ∈ held, ∃ sql, f.body = .parse unnamed sql) :
    (trExtendedCycleScan cfg acked txPortals held frames).1 = .commit ∨
      (trExtendedCycleScan cfg acked txPortals held frames).1 =
        joined (((priorNames acked txPortals).executes (readKind cfg) (cycleFrames held frames)).map
          (·.getD .commit)) := by
  have hs := priorNames_follows acked txPortals
  rw [trExtendedCycleScan_fst]
  cases held with
  | none => exact scannedKind_foldlM hs rfl
  | some f =>
    obtain ⟨sql, hb⟩ := hu f rfl
    cases ht : sql.utf8? with
    | none =>
      left
      simp only [map_some, parseMsgSql, hb, ht]
      rfl
    | some s =>
      have hse : (priorNames acked txPortals).executes (readKind cfg) (cycleFrames (some f) frames) =
          ((priorNames acked txPortals).after (readKind cfg) (.parse unnamed sql)).executes
            (readKind cfg) frames := by
        rw [cycleFrames, toList_some, singleton_append, Names.executes, hb]
      have hk : readKind cfg sql = some (trParseKind cfg.allowsCall s) := by rw [readKind, ht]; rfl
      rw [hse]
      simp only [map_some, parseMsgSql, hb, ht]
      refine scannedKind_foldlM (hs.assign_statement ?_ rfl) rfl
      rw [hk]
      exact statement_unnamed acked ⟨[], [], [], none, none, .control, ⟨[], []⟩⟩ _

end Scan

/-! ## The backend -/

def Names.runs (b : Names WireStr) (frames : List Frame) : List WireStr :=
  (b.executes some frames).filterMap id

/-- What the proxy has noted of earlier cycles is right where the backend holds anything:
an acknowledged statement has the text of its `Parse`, and an open portal has a kind that
covers its statement. -/
structure DescribedBy (cfg : Settings) (acked : Table Str AckedStmt)
    (txPortals : Table Str StmtKind) (b : Names WireStr) : Prop where
  statements : ∀ name a sql, acked.get name = some a → b.statements (.text name) = some sql →
    a.parse.body = .parse (.text name) sql ∧ some a.kind = readKind cfg sql
  portals : ∀ name k sql, txPortals.get name = some k → b.portals (.text name) = some sql →
    (kindOf cfg sql).rank ≤ k.rank

variable {cfg : Settings} {acked : Table Str AckedStmt} {txPortals : Table Str StmtKind}
  {b : Names WireStr}

theorem rank_kindOf_le {sql : WireStr} {k : StmtKind} (hk : readKind cfg sql = some k) :
    (kindOf cfg sql).rank ≤ k.rank := by
  cases sql with
  | raw bytes => cases hk
  | text s =>
    cases hk
    exact rank_trClassify_le cfg.allowsCall s

theorem DescribedBy.agree (hd : DescribedBy cfg acked txPortals b) :
    b.Agree (fun sql k => (kindOf cfg sql).rank ≤ k.rank) (priorNames acked txPortals) where
  statements := by
    intro n sql k hh hn
    rw [priorNames] at hn
    simp only [ite_none_left_eq_some, map_eq_some_iff, bind_eq_some_iff] at hn
    obtain ⟨-, a, ⟨name, ht, hhe⟩, rfl⟩ := hn
    obtain ⟨s, rfl⟩ := utf8?_isSome (by rw [ht]; rfl)
    obtain rfl := Option.some.inj ht
    exact rank_kindOf_le (hd.statements s a sql hhe hh).2.symm
  portals := by
    intro n sql k hh hn
    rw [priorNames] at hn
    simp only [ite_none_left_eq_some, bind_eq_some_iff] at hn
    obtain ⟨-, name, ht, hhe⟩ := hn
    obtain ⟨s, rfl⟩ := utf8?_isSome (by rw [ht]; rfl)
    obtain rfl := Option.some.inj ht
    exact hd.portals s k sql hhe hh

theorem exists_of_forall₂ {α β : Type} {R : α → β → Prop} {xs : List α} {ys : List β}
    (hr : Forall₂ R xs ys) : ∀ x ∈ xs, ∃ y ∈ ys, R x y := by
  induction hr with
  | nil => simp
  | cons hxy _ ih =>
    intro x hm
    rcases mem_cons.mp hm with rfl | hl
    · exact ⟨_, mem_cons_self, hxy⟩
    · obtain ⟨y, hf, hy⟩ := ih x hl
      exact ⟨y, mem_cons_of_mem _ hf, hy⟩

/-- What a backend runs of a cycle is covered by the kinds the scan finds behind its
`Execute`s. -/
theorem DescribedBy.rank_runs_le (hd : DescribedBy cfg acked txPortals b)
    {fs : List Frame} {sql : WireStr} (hr : sql ∈ b.runs fs) :
    (kindOf cfg sql).rank ≤
      (joined (((priorNames acked txPortals).executes (readKind cfg) fs).map (·.getD .commit))).rank := by
  have hre : ∀ sql a k, some sql = some a → readKind cfg sql = some k → (kindOf cfg a).rank ≤ k.rank := by
    intro sql a k hs hk
    cases hs
    exact rank_kindOf_le hk
  obtain ⟨_, hm, rfl⟩ := mem_filterMap.mp hr
  obtain ⟨y, hf, hc⟩ := exists_of_forall₂ (hd.agree.executes hre fs) _ hm
  have hj := rank_joined_le.mp (le_refl _) _ (List.mem_map_of_mem (f := (·.getD .commit)) hf)
  refine le_trans ?_ hj
  cases y with
  | none => exact StmtKind.rank_le_commit _
  | some k => exact hc sql k rfl rfl

/-- Whatever the backend runs of a cycle, up to the frame it fails at if it does, the
scan of the cycle reports a kind that is at least the join of the kinds of it; and an
`Execute` without a definition makes it report one that may commit. -/
theorem trExtendedCycleScan_covers (cfg : Settings) (acked : Table Str AckedStmt)
    (txPortals : Table Str StmtKind) (held : Option Frame) (frames : List Frame)
    (b : Names WireStr) (reached : Nat)
    (hunnamedParse : ∀ f ∈ held, ∃ sql, f.body = .parse unnamed sql)
    (hdescribed : DescribedBy cfg acked txPortals b) :
    (joined ((b.runs ((cycleFrames held frames).take reached)).map (kindOf cfg))).rank ≤
        (trExtendedCycleScan cfg acked txPortals held frames).1.rank ∧
      (none ∈ (priorNames acked txPortals).executes (readKind cfg) (cycleFrames held frames) →
        (trExtendedCycleScan cfg acked txPortals held frames).1 = .commit) := by
  have hruns_all : ∀ sql ∈ b.runs ((cycleFrames held frames).take reached),
      sql ∈ b.runs (cycleFrames held frames) :=
    fun _ hhere => ((Names.executes_take_prefix some _ reached b).filterMap id).subset hhere
  rcases @trExtendedCycleScan_kind cfg acked txPortals held frames
    hunnamedParse with hcommits | hjoins
  · rw [hcommits]
    exact ⟨StmtKind.rank_le_commit _, fun _ => rfl⟩
  · rw [hjoins]
    constructor
    · rw [rank_joined_le, List.forall_mem_map]
      exact fun sql hhere => hdescribed.rank_runs_le (hruns_all sql hhere)
    · intro hundefined
      have htop := rank_joined_le.mp (le_refl _) _
        (List.mem_map_of_mem (f := (·.getD StmtKind.commit)) hundefined)
      revert htop
      generalize joined _ = k
      cases k <;> decide

/-- A statement of an earlier cycle that is bound, closed and then executed by its
portal. -/
theorem trExtendedCycleScan_covers_closed :
    let cfg : Settings := ⟨8, 8, 100, fun _ => false, fun _ => []⟩
    let frame : FrameBody → Frame := Frame.mk []
    let s : WireStr := .text "s"
    let select : WireStr := .text "SELECT 1"
    let acked : Table Str AckedStmt := [("s", ⟨frame (.parse s select), .read⟩)]
    let frames := [frame (.bind unnamed s), frame (.close 'S' s), frame (.execute unnamed), frame .sync]
    let b : Names WireStr := ⟨fun n => if n = s then some select else none, fun _ => none⟩
    b.runs frames = [select] ∧ (trExtendedCycleScan cfg acked [] none frames).1 = .read ∧
      (joined ((b.runs (frames.take 4)).map (kindOf cfg))).rank ≤
        (trExtendedCycleScan cfg acked [] none frames).1.rank := by
  intro cfg frame s select acked frames b
  have hdescribed : DescribedBy cfg acked [] b := by
    constructor
    · intro name a sql hnoted hheld
      have hkey : name = "s" := by
        by_contra hother
        have habsent : acked.get name = none := by
          simpa [acked, Table.get] using Ne.symm hother
        rw [habsent] at hnoted
        cases hnoted
      subst hkey
      obtain rfl : (⟨frame (.parse s select), .read⟩ : AckedStmt) = a := Option.some.inj hnoted
      obtain rfl : select = sql := Option.some.inj hheld
      exact ⟨rfl, by decide⟩
    · intro name k sql hnoted
      cases hnoted
  exact ⟨by decide, by decide +kernel,
    (trExtendedCycleScan_covers cfg acked [] none frames b 4 (by simp) hdescribed).1⟩

end HeliosProxy.Replay
