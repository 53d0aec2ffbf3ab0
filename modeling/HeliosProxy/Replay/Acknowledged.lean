import HeliosProxy.Pool.CleanReset
import HeliosProxy.Replay.CycleKinds
import HeliosProxy.Replay.History

/-!
# The statements a backend has acknowledged

The proxy keeps the `Parse` of every named statement a backend has answered for.  A
backend forgets one by a `Close`, and by a `DEALLOCATE` or `DISCARD ALL` that is run,
whoever has it run: by a query, by an `Execute` of a statement with that text, or by an
SQL `EXECUTE` of one.

The proxy looks for such a text in the queries and in the `Parse`s of a cycle.  It
does not see one that was parsed in an earlier cycle, or held in front of a chunk;
and what a query interrupts, or a chunk it does not retain, it does not see at all.
-/

namespace HeliosProxy.Replay

open Text Postgres Runs Journal Pool List Option

/-! ## Texts that drop statements -/

inductive Dropped
  | nothing
  | one (name : Str)
  | all
deriving DecidableEq

/-- The keyword `k` is a token of the text. -/
def HasKeyword (k : String) (sql : Str) : Prop :=
  ∃ a w b, IsKeyword k w ∧ sql = a ++ (w ++ b) ∧ a.getLast?.all (!identCont ·) = true ∧
    b.head?.all (!identCont ·) = true

/-- What the texts of statements drop on a backend that holds the statements `held`.  By its
own words only a `DEALLOCATE` or a `DISCARD` drops anything; another text may drop by what it
runs, as an `EXECUTE` does by the statement it names. -/
structure Deallocations where
  own : Str → Dropped
  drops (held : WireStr → Option Frame) (sql : Str) : Dropped
  keyword : ∀ sql, own sql ≠ .nothing → HasKeyword "deallocate" sql ∨ HasKeyword "discard" sql

variable {sql : Str} {k : String}

theorem HasKeyword.containsWordCi (hn : k.toList ≠ [])
    (hk : HasKeyword k sql) : containsWordCi sql k.toList := by
  obtain ⟨a, w, b, hs, rfl, he, hst⟩ := hk
  rw [Text.containsWordCi, containsWordCiFrom_append hn hs]
  · simpa using hn
  · cases b with
    | nil => rfl
    | cons c b => exact asciiIdent_of_identCont hst
  · rw [or_none]
    cases h : a.getLast? with
    | none => rfl
    | some c => rw [h] at he; exact asciiIdent_of_identCont he

theorem HasKeyword.within (hk : HasKeyword k sql) {x y : Str}
    (he : x.getLast?.all (!identCont ·))
    (hs : y.head?.all (!identCont ·)) : HasKeyword k (x ++ (sql ++ y)) := by
  obtain ⟨a, w, b, hsp, rfl, ha, hb⟩ := hk
  refine ⟨x ++ a, w, b ++ y, hsp, by simp, ?_, ?_⟩
  · rw [getLast?_append]
    cases h : a.getLast? with
    | none => exact he
    | some c => rwa [h] at ha
  · cases b with
    | nil => exact hs
    | cons c b => exact hb

variable (texts : Deallocations)

theorem Deallocations.touches {x y : Str}
    (hd : texts.own sql ≠ .nothing) (he : x.getLast?.all (!identCont ·))
    (hs : y.head?.all (!identCont ·)) :
    trTouchesStatements (x ++ (sql ++ y)) := by
  rw [trTouchesStatements]
  rcases texts.keyword sql hd with h | h
  · rw [(h.within he hs).containsWordCi (by decide)]
    rfl
  · rw [(h.within he hs).containsWordCi (by decide), Bool.or_true]
    rfl

/-! ## The backend -/

/-- The statements behind a text that drops `d`.  The unnamed one is no concern of
it. -/
def Dropped.behind (d : Dropped) (m : WireStr → Option Frame) : WireStr → Option Frame :=
  match d with
  | .nothing => m
  | .one name => if name = [] then m else assign m (.text name) none
  | .all => fun n => if n = unnamed then m n else none

/-- What the text of the statement that a `Parse` has defined drops. -/
def Deallocations.dropsOf (texts : Deallocations) (held : WireStr → Option Frame) (parse : Option Frame) :
    Dropped :=
  match parse.bind parseMsgSql with
  | none => .nothing
  | some sql => texts.drops held sql

/-- What the statements of a query drop, each on what those in front of it have left. -/
def Deallocations.ran (texts : Deallocations) (held : WireStr → Option Frame) : List Str → List Dropped
  | [] => []
  | sql :: stmts =>
    let d := texts.drops held sql
    d :: texts.ran (d.behind held) stmts

section Server

variable (texts : Deallocations)

/-- A frame that the backend takes: its statements and portals are the `Parse`s they
were defined by. -/
def take (s : Names Frame) (f : Frame) : Names Frame :=
  match f.body with
  | .parse name _ => { s with statements := assign s.statements name (some f) }
  | .bind portal name => { s with portals := assign s.portals portal (s.statements name) }
  | .execute portal =>
    { s with statements := (texts.dropsOf s.statements (s.portals portal)).behind s.statements }
  | .close 'S' name => { s with statements := assign s.statements name none }
  | .close 'P' name => { s with portals := assign s.portals name none }
  | _ => s

def takeAll (s : Names Frame) (fs : List Frame) : Names Frame := fs.foldl (take texts) s

/-- Whether an `Execute` among the frames runs a text that drops statements. -/
def runsDrop : Names Frame → List Frame → Bool
  | _, [] => false
  | s, f :: fs =>
    (match f.body with
      | .execute portal => texts.dropsOf s.statements (s.portals portal) ≠ .nothing
      | _ => false) || runsDrop (take texts s f) fs

end Server

def Frame.statement? (f : Frame) : Option WireStr :=
  match f.body with
  | .parse name _ => some name
  | .close 'S' name => some name
  | _ => none

variable (s : Names Frame)

theorem takeAll_append (fs gs : List Frame) :
    takeAll texts s (fs ++ gs) = takeAll texts (takeAll texts s fs) gs :=
  foldl_append

theorem runsDrop_append (fs gs : List Frame) :
    ∀ s, runsDrop texts s (fs ++ gs) = (runsDrop texts s fs || runsDrop texts (takeAll texts s fs) gs) := by
  induction fs with
  | nil => exact fun _ => rfl
  | cons f fs ih =>
    intro s
    rw [cons_append, runsDrop, ih, runsDrop, Bool.or_assoc]
    rfl

section Take

variable {texts : Deallocations} {s : Names Frame} {n : WireStr}

theorem runsDrop_cons {f : Frame} {fs : List Frame} :
    runsDrop texts s (f :: fs) = false ↔ runsDrop texts s [f] = false ∧ runsDrop texts (take texts s f) fs = false := by
  rw [← singleton_append, runsDrop_append, Bool.or_eq_false_iff]
  rfl

/-- A frame changes the statement it names, and every other one only by running a text
that drops statements. -/
theorem take_statements {f : Frame} (ho : f.statement? ≠ some n)
    (hd : runsDrop texts s [f] = false) : (take texts s f).statements n = s.statements n := by
  rw [runsDrop, runsDrop, Bool.or_false] at hd
  rw [Frame.statement?] at ho
  unfold take
  split
  case h_1 name sql hb =>
    rw [hb] at ho
    simp only [assign]
    rw [if_neg fun hs => ho (by subst hs; rfl)]
  case h_2 => rfl
  case h_3 portal hb =>
    simp only [hb, decide_eq_false_iff_not, not_not] at hd
    simp only [hd, Dropped.behind]
  case h_4 name hb =>
    rw [hb] at ho
    simp only [assign]
    rw [if_neg fun hs => ho (by subst hs; rfl)]
  case h_5 => rfl
  case h_6 => rfl

theorem takeAll_statements (fs : List Frame) :
    ∀ {s : Names Frame}, (∀ f ∈ fs, f.statement? ≠ some n) → runsDrop texts s fs = false →
      (takeAll texts s fs).statements n = s.statements n := by
  induction fs with
  | nil => exact fun _ _ => rfl
  | cons f fs ih =>
    intro s ho hd
    obtain ⟨hh, hl⟩ := runsDrop_cons.mp hd
    exact (ih (fun g hm => ho g (mem_cons_of_mem _ hm)) hl).trans
      (take_statements (ho f mem_cons_self) hh)

end Take

/-! ## What is noted of a cycle -/

/-- Whether the text of a `Parse` among the frames speaks of prepared statements. -/
def parsesTouching (fs : List Frame) : Bool := fs.any fun f => (parseMsgSql f).any trTouchesStatements

section Note

variable {cfg : Settings} {registry : Table Str Frame} {hadError : Bool} {f : Frame}
  {forgets forgets' : Bool}

theorem noteDefinition_cases {acked acked' : Table Str AckedStmt}
    (hn : noteDefinition cfg registry hadError (acked, forgets) f = .ok (acked', forgets')) :
    (forgets' = (forgets || (parseMsgSql f).any trTouchesStatements)) ∧
      ((acked' = acked ∧ ∀ name, name ≠ [] → f.statement? ≠ some (.text name)) ∨
        (∃ name, f.statement? = some (.text name) ∧ acked' = acked.remove name) ∨
        ∃ name sql, name ≠ [] ∧ hadError = false ∧ f.body = .parse (.text name) (.text sql) ∧
          acked' = acked.insert name ⟨f, trParseKind cfg.allowsCall sql⟩) := by
  unfold noteDefinition at hn
  simp only at hn
  split at hn
  case h_1 name sql hb =>
    split at hn
    case h_1 name' sql' hname hsql =>
      obtain ⟨n, rfl⟩ := utf8?_isSome (by rw [hname]; rfl)
      obtain ⟨t, rfl⟩ := utf8?_isSome (by rw [hsql]; rfl)
      obtain rfl := Option.some.inj hname
      obtain rfl := Option.some.inj hsql
      have ht : parseMsgSql f = some t := by rw [parseMsgSql, hb]; rfl
      have hna : f.statement? = some (.text n) := by rw [Frame.statement?, hb]
      rw [ht]
      split at hn
      case isTrue he =>
        obtain ⟨rfl, rfl⟩ := Prod.mk.inj (Except.ok.inj hn)
        refine ⟨rfl, .inl ⟨rfl, fun name hno hs => hno ?_⟩⟩
        rw [hna] at hs
        rw [← WireStr.text.inj (Option.some.inj hs)]
        simpa using he
      case isFalse hno =>
        split at hn
        case isTrue hk =>
          obtain ⟨rfl, rfl⟩ := Prod.mk.inj (Except.ok.inj hn)
          refine ⟨rfl, .inr (.inr ⟨n, t, by simpa using hno, ?_, hb, rfl⟩)⟩
          simp only [Bool.and_eq_true, Bool.not_eq_true'] at hk
          exact hk.1
        case isFalse =>
          obtain ⟨rfl, rfl⟩ := Prod.mk.inj (Except.ok.inj hn)
          exact ⟨rfl, .inr (.inl ⟨n, hna, rfl⟩)⟩
    case h_2 => cases hn
  case h_2 => cases hn
  case h_3 name hb =>
    cases hn
    have ht : parseMsgSql f = none := by rw [parseMsgSql, hb]
    rw [ht]
    exact ⟨by simp, .inr (.inl ⟨name, by rw [Frame.statement?, hb]; rfl, rfl⟩)⟩
  case h_4 hnot _ hnotC =>
    cases hn
    have ht : parseMsgSql f = none := by
      rw [parseMsgSql]
      split
      case h_1 name sql hb => exact absurd hb (hnot name sql)
      case h_2 => rfl
    rw [ht]
    refine ⟨by simp, .inl ⟨rfl, fun name _ hs => ?_⟩⟩
    rw [Frame.statement?] at hs
    split at hs
    case h_1 name' sql hb => exact hnot name' sql hb
    case h_2 name' hb =>
      cases hs
      exact hnotC name hb
    case h_3 => cases hs

def Held (acked : Table Str AckedStmt) (s : Names Frame) : Prop :=
  ∀ name a, acked.get name = some a → name ≠ [] ∧ s.statements (.text name) = some a.parse

theorem held_nil : Held [] s := fun _ _ hf => by cases hf

theorem foldlM_noteDefinition_cons {fs : List Frame} {noted noted' : Table Str AckedStmt × Bool}
    (hf : (f :: fs).foldlM (noteDefinition cfg registry hadError) noted = .ok noted') :
    ∃ mid, noteDefinition cfg registry hadError noted f = .ok mid ∧
      fs.foldlM (noteDefinition cfg registry hadError) mid = .ok noted' := by
  rw [foldlM_cons] at hf
  cases hs : noteDefinition cfg registry hadError noted f with
  | error acked =>
    rw [hs] at hf
    cases hf
  | ok mid =>
    rw [hs] at hf
    exact ⟨mid, rfl, hf⟩

theorem foldlM_noteDefinition_forgets (fs : List Frame) :
    ∀ {acked acked' : Table Str AckedStmt} {forgets forgets' : Bool},
      fs.foldlM (noteDefinition cfg registry hadError) (acked, forgets) = .ok (acked', forgets') →
      forgets' = (forgets || parsesTouching fs) := by
  induction fs with
  | nil =>
    intro acked acked' forgets forgets' hf
    cases hf
    exact (Bool.or_false _).symm
  | cons f fs ih =>
    intro acked acked' forgets forgets' hf
    obtain ⟨mid, hs, hr⟩ := foldlM_noteDefinition_cons hf
    rw [ih hr, (noteDefinition_cases hs).1, Bool.or_assoc]
    rfl

/-- Behind a cycle that may have failed, what is still noted was noted before, and no
frame of the cycle names it. -/
theorem foldlM_noteDefinition_failed (fs : List Frame) :
    ∀ {acked acked' : Table Str AckedStmt} {forgets forgets' : Bool},
      fs.foldlM (noteDefinition cfg registry true) (acked, forgets) = .ok (acked', forgets') →
      ∀ name a, acked'.get name = some a → acked.get name = some a ∧
        (name ≠ [] → ∀ f ∈ fs, f.statement? ≠ some (.text name)) := by
  induction fs with
  | nil =>
    intro acked acked' forgets forgets' hf name a hfo
    cases hf
    exact ⟨hfo, by simp⟩
  | cons f fs ih =>
    intro acked acked' forgets forgets' hf name a hfo
    obtain ⟨mid, hst, hr⟩ := foldlM_noteDefinition_cons hf
    obtain ⟨ht, ho⟩ := ih hr name a hfo
    rcases (noteDefinition_cases hst).2 with ⟨hs, hu⟩ | ⟨gone, hna, hre⟩ | ⟨_, _, _, hsu, _⟩
    · rw [hs] at ht
      exact ⟨ht, fun hn => forall_mem_cons.mpr ⟨hu name hn, ho hn⟩⟩
    · rw [hre, Table.get_remove] at ht
      obtain ⟨hot, ht⟩ := ite_none_left_eq_some.mp ht
      refine ⟨ht, fun hn => forall_mem_cons.mpr ⟨fun hs => hot ?_, ho hn⟩⟩
      exact WireStr.text.inj (Option.some.inj (hs.symm.trans hna))
    · cases hsu

variable {texts : Deallocations}

theorem Held.take {acked acked' : Table Str AckedStmt} {s : Names Frame}
    (hh : Held acked s) (hd : runsDrop texts s [f] = false)
    (hno : noteDefinition cfg registry hadError (acked, forgets) f = .ok (acked', forgets')) :
    Held acked' (take texts s f) := by
  intro name a hf
  have hst (hf : acked.get name = some a) (ho : name ≠ [] → f.statement? ≠ some (.text name)) :
      name ≠ [] ∧ (Replay.take texts s f).statements (.text name) = some a.parse := by
    obtain ⟨hn, ht⟩ := hh name a hf
    exact ⟨hn, (take_statements (ho hn) hd).trans ht⟩
  rcases (noteDefinition_cases hno).2 with ⟨hs, hot⟩ | ⟨gone, hna, hr⟩ |
    ⟨new, sql, hn, -, hb, hi⟩
  · rw [hs] at hf
    exact hst hf (hot name)
  · rw [hr, Table.get_remove] at hf
    obtain ⟨ho, hf⟩ := ite_none_left_eq_some.mp hf
    refine hst hf fun _ hs => ho ?_
    exact WireStr.text.inj (Option.some.inj (hs.symm.trans hna))
  · rw [hi, Table.get_insert] at hf
    split at hf
    case isTrue hhe =>
      subst hhe
      cases hf
      refine ⟨hn, ?_⟩
      simp only [Replay.take, hb, assign, if_true]
    case isFalse ho =>
      refine hst hf fun _ hs => ho ?_
      rw [Frame.statement?, hb] at hs
      exact (WireStr.text.inj (Option.some.inj hs)).symm

theorem Held.takeAll (fs : List Frame) :
    ∀ {acked acked' : Table Str AckedStmt} {s : Names Frame} {forgets forgets' : Bool},
      Held acked s → runsDrop texts s fs = false →
      fs.foldlM (noteDefinition cfg registry hadError) (acked, forgets) = .ok (acked', forgets') →
      Held acked' (takeAll texts s fs) := by
  induction fs with
  | nil =>
    intro acked acked' s forgets forgets' hh _ hf
    cases hf
    exact hh
  | cons f fs ih =>
    intro acked acked' s forgets forgets' hh hd hf
    obtain ⟨mid, hs, hr⟩ := foldlM_noteDefinition_cons hf
    obtain ⟨hhe, hl⟩ := runsDrop_cons.mp hd
    exact ih (hh.take hhe hs) hl hr

theorem foldlM_noteDefinition_error (fs : List Frame) :
    ∀ {noted : Table Str AckedStmt × Bool} {acked : Table Str AckedStmt},
      fs.foldlM (noteDefinition cfg registry hadError) noted = .error acked → acked = [] := by
  induction fs with
  | nil =>
    intro noted acked hf
    cases hf
  | cons f fs ih =>
    intro noted acked hf
    rw [foldlM_cons] at hf
    cases hs : noteDefinition cfg registry hadError noted f with
    | error acked' =>
      rw [hs] at hf
      cases hf
      unfold noteDefinition at hs
      repeat' split at hs
      all_goals first
        | exact (Except.error.inj hs).symm
        | cases hs
    | ok mid =>
      rw [hs] at hf
      exact ih hf

/-- The names of a cycle are all forgotten where one of its texts speaks of prepared
statements; otherwise, or where a frame cannot be read, they are those noted. -/
theorem trNoteDefinitions_cases (acked : Table Str AckedStmt) (fs : List Frame) :
    trNoteDefinitions cfg registry hadError acked fs = [] ∨
      parsesTouching fs = false ∧ ∃ forgets, fs.foldlM (noteDefinition cfg registry hadError) (acked, false) =
        .ok (trNoteDefinitions cfg registry hadError acked fs, forgets) := by
  rw [trNoteDefinitions]
  cases hf : fs.foldlM (noteDefinition cfg registry hadError) (acked, false) with
  | error acked' => exact .inl (foldlM_noteDefinition_error fs hf)
  | ok noted =>
    have hfo := foldlM_noteDefinition_forgets fs hf
    simp only [hfo]
    cases parsesTouching fs with
    | true => exact .inl rfl
    | false => exact .inr ⟨rfl, noted.2, rfl⟩

theorem foldlM_noteDefinition_unnamed (fs : List Frame) :
    ∀ {acked : Table Str AckedStmt} {forgets forgets' : Bool},
      (∀ f ∈ fs, f.statement? = none ∨ f.statement? = some unnamed) →
      fs.foldlM (noteDefinition cfg registry hadError) ([], forgets) = .ok (acked, forgets') →
      acked = [] := by
  induction fs with
  | nil =>
    intro acked forgets forgets' _ hf
    exact (Prod.mk.inj (Except.ok.inj hf)).1.symm
  | cons f fs ih =>
    intro acked forgets forgets' hu hf
    obtain ⟨⟨mid, forgotten⟩, hs, hr⟩ := foldlM_noteDefinition_cons hf
    obtain ⟨hh, hl⟩ := forall_mem_cons.mp hu
    obtain rfl : mid = [] := by
      rcases (noteDefinition_cases hs).2 with ⟨hsa, -⟩ | ⟨_, -, hre⟩ | ⟨name, sql, hn, -, hb, -⟩
      · exact hsa
      · exact hre
      · rw [Frame.statement?, hb] at hh
        have he := hh.resolve_left (by simp)
        exact absurd (WireStr.text.inj (Option.some.inj he)) hn
    exact ih hl hr

end Note

/-! ## The session behind a response -/

structure NotesKept (s s' : Session) : Prop where
  mode : s'.mode = s.mode
  acked : s'.acked = s.acked
  extCycle : s'.extCycle = s.extCycle
  extCycleDropped : s'.extCycleDropped = s.extCycleDropped

section Session

variable (cfg : Settings) (r : Response) (s : Session)

theorem record_notesKept (prev : BlockStatus) (sql : Str) (k : StmtKind) (entry : StatementLog) (n : Nat)
    (ts : TransactionState) :
    NotesKept s (record cfg r prev sql k entry n s ts) := by
  rw [record]
  dsimp only
  repeat' split
  all_goals exact ⟨rfl, rfl, rfl, rfl⟩

theorem trAfterResponse_notesKept (sql : Option Str) (k : Option StmtKind) (entry : StatementLog) (n : Nat) :
    NotesKept s (trAfterResponse cfg r sql k entry n s) := by
  rw [trAfterResponse]
  dsimp only
  split
  · exact ⟨rfl, rfl, rfl, rfl⟩
  · split
    · split <;> exact ⟨rfl, rfl, rfl, rfl⟩
    · split
      · exact ⟨rfl, rfl, rfl, rfl⟩
      · split
        · exact ⟨rfl, rfl, rfl, rfl⟩
        · have hk (s prev sql k ts) := record_notesKept cfg r s prev sql k entry n ts
          exact ⟨(hk _ _ _ _ _).mode, (hk _ _ _ _ _).acked, (hk _ _ _ _ _).extCycle,
            (hk _ _ _ _ _).extCycleDropped⟩

theorem trAfterSimple_notes (query : WireStr) :
    (trAfterSimple cfg r query s).mode = s.mode ∧ (trAfterSimple cfg r query s).extCycle = none ∧
      (trAfterSimple cfg r query s).extCycleDropped = false ∧
      (trAfterSimple cfg r query s).acked =
        if query.utf8?.all trTouchesStatements then [] else s.acked := by
  rw [trAfterSimple]
  generalize (if query.utf8?.all trTouchesStatements = true then ([] : Table Str AckedStmt)
    else s.acked) = acked
  have hk := trAfterResponse_notesKept cfg r { s.interrupt with acked := acked }
    query.utf8? none ⟨query.utf8?.getD [], none, none⟩ ((query.utf8?.map byteLen).getD 0)
  split <;> exact ⟨hk.mode, hk.extCycle, hk.extCycleDropped, hk.acked⟩

theorem recordCycle_notes (uncertain : Bool) (ext : ExtBatch) :
    let s' := recordCycle cfg r uncertain ext s
    s'.mode = s.mode ∧ s'.extCycle = none ∧ s'.extCycleDropped = false ∧
      s'.acked = ackedBehind cfg uncertain ext s := by
  have hk (sql k entry n) := trAfterResponse_notesKept cfg r
    { s with extCycle := none, extCycleDropped := false, acked := ackedBehind cfg uncertain ext s }
    sql k entry n
  exact ⟨(hk _ _ _ _).mode, (hk _ _ _ _).extCycle, (hk _ _ _ _).extCycleDropped,
    (hk _ _ _ _).acked⟩

theorem forgetCycle_notes (uncertain : Bool) (ext : ExtBatch) :
    let s' := forgetCycle cfg uncertain ext s
    s'.mode = s.mode ∧ s'.extCycle = none ∧ s'.extCycleDropped = false ∧
      (s'.acked = [] ∨ s'.acked = ackedBehind cfg uncertain ext s) := by
  rw [forgetCycle]
  refine ⟨rfl, rfl, rfl, ?_⟩
  split
  case isTrue hn =>
    simp only [Bool.and_eq_true, List.isEmpty_iff] at hn
    exact .inl hn.1
  case isFalse => exact .inr rfl

/-- The session behind a `Sync`, in a recording mode. -/
theorem trAfterSync_notes (ext : ExtBatch) :
    let uncertain := s.lastResponseError || s.extCycle.isSome || s.copyInProgress
    let acked := if s.extCycleDropped then [] else s.acked
    let s' := trAfterSync cfg r ext s
    s'.mode = s.mode ∧ s'.extCycle = none ∧ s'.extCycleDropped = false ∧
      (s'.acked = [] ∨ s'.acked = trNoteDefinitions cfg ext.registry uncertain acked
        (s.extCycle.elim [] TrExtCycle.frames ++ ext.wire)) := by
  intro uncertain acked s'
  simp only [s', trAfterSync]
  split
  · obtain ⟨hm, hc, hd, hn⟩ :=
      recordCycle_notes cfg r { s with acked := acked } uncertain ext
    exact ⟨hm, hc, hd, .inr hn⟩
  · exact forgetCycle_notes cfg { s with acked := acked } uncertain ext

theorem mem_extend_frames {cycle : Option TrExtCycle} {ext : ExtBatch} {writes : Bool} {f : Frame}
    (hm : f ∈ cycle.elim [] TrExtCycle.frames ++ ext.batch) :
    f ∈ (TrExtCycle.extend cycle ext writes).frames := by
  cases cycle with
  | none => exact hm
  | some c =>
    rcases mem_append.mp hm with ho | hn
    · exact mem_append_left _ ho
    · exact mem_append_right _ (mem_append_right _ hn)

end Session

/-! ## Runs -/

/-- The session and its backend: the statements and portals behind the last
`ReadyForQuery`, the frames it has taken of the open cycle, and whether it skips the
rest of it. -/
structure AckWorld where
  session : Session
  ready : Names Frame
  cycleOpen : Bool
  taken : List Frame
  skipping : Bool

def AckWorld.new (mode : TrMode) : AckWorld :=
  ⟨.new mode, ⟨fun _ => none, fun _ => none⟩, false, [], false⟩

/-- A message of the session.  A query is its statements, of which the backend has run
`ran`; of a batch it has taken `reached` frames.  `copying` is a response that waits for
the data of a `COPY`. -/
inductive AckEvent
  | simple (stmts : List Str) (ran : Nat) (r : Response) (copying : Bool)
  | raw (query : List UInt8) (dropped : List Dropped) (r : Response) (copying : Bool)
  | sync (ext : ExtBatch) (reached : Nat) (r : Response) (copying : Bool)
  | flush (ext : ExtBatch) (reached : Nat) (room : Bool)

def queryText (stmts : List Str) : Str := [';'].intercalate stmts

/-- The held frame of a batch is a `Parse` of the unnamed statement. -/
def ExtBatch.holdsUnnamed (ext : ExtBatch) : Bool :=
  ext.unnamed.all fun f =>
    match f.body with
    | .parse name _ => name = Text.unnamed
    | _ => false

namespace AckWorld

variable (texts : Deallocations) (cfg : Settings) (w : AckWorld)

def now : Names Frame := takeAll texts w.ready w.taken

def takes (ext : ExtBatch) (reached : Nat) : List Frame :=
  if w.skipping then [] else ext.wire.take reached

/-- The backend behind `ReadyForQuery`: no portal outlives its transaction. -/
def readied (s : Names Frame) (status : BlockStatus) : Names Frame :=
  if status = .idle then { s with portals := fun _ => none } else s

def queried (s : Names Frame) (dropped : List Dropped) : Names Frame where
  statements := assign (dropped.foldl (fun m d => d.behind m) s.statements) unnamed none
  portals := assign s.portals unnamed none

/-- A backend that skips to the `Sync` answers no query, and a batch that is not
answered with an error was taken whole. -/
def step : AckEvent → Option AckWorld
  | .simple stmts ran r copying =>
    if w.skipping then none
    else some
      { session := trAfterSimple cfg r (.text (queryText stmts))
          { w.session.answered r with copyInProgress := copying }
        ready := readied (queried (w.now texts) (texts.ran (w.now texts).statements (stmts.take ran))) r.status
        cycleOpen := false
        taken := []
        skipping := false }
  | .raw query dropped r copying =>
    if w.skipping then none
    else some
      { session := trAfterSimple cfg r (.raw query) { w.session.answered r with copyInProgress := copying }
        ready := readied (queried (w.now texts) dropped) r.status
        cycleOpen := false
        taken := []
        skipping := false }
  | .sync ext reached r copying =>
    if ext.holdsUnnamed ∧ (w.skipping ∨ copying ∨ r.hadError ∨ ext.wire.length ≤ reached) then some
      { session := trAfterExtended cfg r ext { w.session.answeredCycle r with copyInProgress := copying }
        ready := readied (takeAll texts (w.now texts) (w.takes ext reached)) r.status
        cycleOpen := false
        taken := []
        skipping := false }
    else none
  | .flush ext reached room =>
    if ext.holdsUnnamed then some
      { w with
        session := trAfterExtendedFlush cfg room ext w.session
        cycleOpen := true
        taken := w.taken ++ w.takes ext reached
        skipping := w.skipping || reached < ext.wire.length }
    else none

/-- Everything that changes the named statements of the backend is where the proxy looks
for it:

* a cycle that runs a text that drops statements has a `Parse` with such a text among
  its frames, other than the one held in front of its first chunk;
* a batch behind a chunk that has failed and was not retained defines no statement;
* a query does not interrupt a cycle that has changed a named statement, and drops
  statements by its own words only. -/
def Seen : AckEvent → Prop
  | .simple stmts ran _ _ =>
    trTouchesStatements (queryText stmts) = true ∨
      (∀ f ∈ w.taken, f.statement? = none ∨ f.statement? = some unnamed) ∧
        runsDrop texts w.ready w.taken = false ∧
        texts.ran (w.now texts).statements (stmts.take ran) = (stmts.take ran).map texts.own
  | .raw _ _ _ _ => True
  | .sync ext reached r _ =>
    ((w.session.extCycleDropped = false ∧ runsDrop texts w.ready w.taken = true) ∨
          runsDrop texts (w.now texts) (w.takes ext reached) = true →
        parsesTouching (w.session.extCycle.elim [] TrExtCycle.frames ++ ext.wire) = true) ∧
      (w.session.extCycleDropped = true → w.skipping = true → r.hadError = true ∨
        ∀ f ∈ ext.wire, f.statement? = none ∨ f.statement? = some unnamed)
  | .flush _ _ _ => True

def AckedHeld : Prop :=
  w.cycleOpen = false →
    ∀ name a, w.session.acked.get name = some a →
      (w.now texts).statements (.text name) = some a.parse

/-- The acknowledged statements are on the backend behind the last `ReadyForQuery`, and
what the frames of the open cycle name is retained with it, unless it is dropped. -/
structure Tracked : Prop where
  held : Held w.session.acked w.ready
  idle : w.cycleOpen = false → w.taken = [] ∧ w.skipping = false
  closed : w.session.extCycle = none → w.session.extCycleDropped = false → w.cycleOpen = false
  retained : w.session.extCycleDropped = true ∨
    ∀ f ∈ w.taken, ∀ name, name ≠ [] → f.statement? = some (.text name) →
      f ∈ w.session.extCycle.elim [] TrExtCycle.frames

instance (e : AckEvent) : Decidable (w.Seen texts e) := by
  cases e <;> unfold AckWorld.Seen <;> infer_instance

theorem readied_statements (status : BlockStatus) :
    (readied s status).statements = s.statements := by
  rw [readied]
  split <;> rfl

variable {texts cfg w} {acked : Table Str AckedStmt} {s : Names Frame}

theorem held_queried {dropped : List Dropped}
    (hh : Held acked s) (hno : ∀ d ∈ dropped, d = .nothing) : Held acked (queried s dropped) := by
  have hs : dropped.foldl (fun m d => d.behind m) s.statements = s.statements := by
    induction dropped with
    | nil => rfl
    | cons d ds ih =>
      obtain ⟨rfl, hr⟩ := forall_mem_cons.mp hno
      exact ih hr
  intro name a hf
  obtain ⟨hn, ht⟩ := hh name a hf
  refine ⟨hn, ?_⟩
  rw [AckWorld.queried, hs]
  simp only [assign, unnamed, WireStr.text.injEq, if_neg hn]
  exact ht

theorem queryText_mem {t : Str} (stmts : List Str) :
    t ∈ stmts → ∃ x y, queryText stmts = x ++ (t ++ y) ∧
      x.getLast?.all (!identCont ·) ∧ y.head?.all (!identCont ·) := by
  induction stmts with
  | nil => intro hm; cases hm
  | cons s rest ih =>
    intro hm
    cases rest with
    | nil =>
      obtain rfl := mem_singleton.mp hm
      exact ⟨[], [], by simp [queryText], rfl, rfl⟩
    | cons s' rest =>
      have ht : queryText (s :: s' :: rest) = s ++ ';' :: queryText (s' :: rest) := by
        simp [queryText]
      rcases mem_cons.mp hm with rfl | hl
      · exact ⟨[], _, ht, rfl, rfl⟩
      · obtain ⟨x, y, hs, he, hst⟩ := ih hl
        refine ⟨s ++ ';' :: x, y, by rw [ht, hs]; simp, ?_, hst⟩
        rw [getLast?_append_of_ne_nil _ (cons_ne_nil _ _), getLast?_cons]
        cases hla : x.getLast? with
        | none => rfl
        | some c => rwa [hla] at he

variable {stmts : List Str}

theorem own_of_untouched (hu : trTouchesStatements (queryText stmts) = false) :
    ∀ t ∈ stmts, texts.own t = .nothing := by
  intro t hm
  by_contra hd
  obtain ⟨x, y, hs, he, hst⟩ := queryText_mem stmts hm
  rw [hs, texts.touches hd he hst] at hu
  cases hu

/-- A cycle that names no statement and runs no text that drops one leaves those that are
acknowledged alone. -/
theorem held_takeAll {fs : List Frame} (hh : Held acked s) (hd : runsDrop texts s fs = false)
    (ho : ∀ name a, acked.get name = some a → ∀ f ∈ fs, f.statement? ≠ some (.text name)) :
    Held acked (takeAll texts s fs) := by
  intro name a hf
  obtain ⟨hn, ht⟩ := hh name a hf
  exact ⟨hn, (takeAll_statements fs (ho name a hf) hd).trans ht⟩

variable {r : Response} {copying : Bool} {w' : AckWorld}

theorem Tracked.simple (htr : w.Tracked) {ran : Nat}
    (hse : w.Seen texts (.simple stmts ran r copying))
    (hst : w.step texts cfg (.simple stmts ran r copying) = some w') : w'.Tracked := by
  obtain ⟨-, ⟨⟩⟩ := ite_none_left_eq_some.mp hst
  refine ⟨?_, fun _ => ⟨rfl, rfl⟩, fun _ _ => rfl, .inr (by simp)⟩
  rw [(trAfterSimple_notes cfg r _ _).2.2.2]
  cases ht : trTouchesStatements (queryText stmts) with
  | true =>
    simp only [WireStr.utf8?, all_some, ht]
    exact held_nil _
  | false =>
    rw [Seen, ht] at hse
    obtain ⟨ho, hd, hown⟩ := hse.resolve_left (by simp)
    simp only [WireStr.utf8?, all_some, ht]
    intro name a hf
    rw [readied_statements]
    refine held_queried (held_takeAll htr.held hd ?_) ?_ name a hf
    · intro name a hf f hm hs
      have hn := (htr.held name a hf).1
      rcases ho f hm with hno | hu
      · rw [hno] at hs
        cases hs
      · rw [hu] at hs
        exact hn (WireStr.text.inj (Option.some.inj hs)).symm
    · rw [hown, List.forall_mem_map]
      exact fun t hm => own_of_untouched ht t (mem_of_mem_take hm)

theorem Tracked.raw {query : List UInt8} {gone : List Dropped}
    (hs : w.step texts cfg (.raw query gone r copying) = some w') : w'.Tracked := by
  obtain ⟨-, ⟨⟩⟩ := ite_none_left_eq_some.mp hs
  refine ⟨?_, fun _ => ⟨rfl, rfl⟩, fun _ _ => rfl, .inr (by simp)⟩
  rw [(trAfterSimple_notes cfg r _ _).2.2.2]
  exact held_nil _

variable {ext : ExtBatch} {f : Frame}

theorem statement?_of_unnamed (hh : ext.holdsUnnamed)
    (hm : f ∈ ext.unnamed) : f.statement? = some unnamed := by
  rw [ExtBatch.holdsUnnamed, hm, all_some] at hh
  rw [Frame.statement?]
  split at hh
  case h_1 name sql hb =>
    rw [hb]
    simpa using hh
  case h_2 => cases hh

theorem mem_batch (hh : ext.holdsUnnamed) {name : Str}
    (hm : f ∈ ext.wire) (hna : name ≠ []) (hn : f.statement? = some (.text name)) :
    f ∈ ext.batch := by
  rcases mem_append.mp hm with hhe | hb
  · rw [statement?_of_unnamed hh (mem_toList.mp hhe)] at hn
    exact absurd (WireStr.text.inj (Option.some.inj hn)).symm hna
  · exact hb

variable {reached : Nat}

theorem mem_wire_of_takes (hm : f ∈ w.takes ext reached) : f ∈ ext.wire := by
  rw [takes] at hm
  split at hm
  · cases hm
  · exact mem_of_mem_take hm

theorem Tracked.flush (ht : w.Tracked) (hr : w.session.recordTx) {room : Bool}
    (hs : w.step texts cfg (.flush ext reached room) = some w') : w'.Tracked := by
  obtain ⟨hh, ⟨⟩⟩ := ite_none_right_eq_some.mp hs
  rw [trAfterExtendedFlush, if_pos hr]
  obtain ⟨ts, -, hc⟩ | ⟨writes, hc⟩ := @trAfterFlush_cases cfg room ext w.session
  · rw [hc]
    exact ⟨ht.held, (by rintro ⟨⟩), (by rintro - ⟨⟩), .inl rfl⟩
  · rw [hc]
    refine ⟨ht.held, (by rintro ⟨⟩), (by rintro ⟨⟩), ?_⟩
    refine ht.retained.imp id fun hre f hm name hn hna => ?_
    apply mem_extend_frames
    rcases mem_append.mp hm with ho | hne
    · exact mem_append_left _ (hre f ho name hn hna)
    · exact mem_append_right _ (mem_batch hh (mem_wire_of_takes hne) hn hna)

theorem takes_of_sure (ha : w.skipping ∨ copying ∨ r.hadError ∨ ext.wire.length ≤ reached)
    (hs : r.hadError = false) (hd : copying = false) (hr : w.skipping = false) :
    w.takes ext reached = ext.wire := by
  rw [takes]
  simpa [hs, hd, hr] using ha

variable {uncertain : Bool}

theorem held_dropped {forgets : Bool} {frames : List Frame}
    (ha : w.skipping ∨ copying ∨ r.hadError ∨ ext.wire.length ≤ reached)
    (hdo : uncertain = false → r.hadError = false ∧ copying = false ∧ frames = ext.wire)
    (hski : w.skipping → r.hadError ∨
      ∀ f ∈ ext.wire, f.statement? = none ∨ f.statement? = some unnamed)
    (hd : runsDrop texts s (w.takes ext reached) = false)
    (hf : frames.foldlM (noteDefinition cfg ext.registry uncertain) ([], false) = .ok (acked, forgets)) :
    Held acked (takeAll texts s (w.takes ext reached)) := by
  cases uncertain with
  | true =>
    intro name a hfo
    obtain ⟨ht, -⟩ := foldlM_noteDefinition_failed frames hf name a hfo
    cases ht
  | false =>
    obtain ⟨hs, hdon, rfl⟩ := hdo rfl
    cases hsk : w.skipping with
    | true =>
      have hu := (hski hsk).resolve_left (by simp [hs])
      rw [foldlM_noteDefinition_unnamed ext.wire hu hf]
      exact held_nil _
    | false =>
      rw [takes_of_sure ha hs hdon hsk] at hd ⊢
      exact (held_nil s).takeAll ext.wire hd hf

theorem held_retained {forgets : Bool} (ht : w.Tracked)
    (hk : w.session.extCycleDropped = false)
    (ha : w.skipping ∨ copying ∨ r.hadError ∨ ext.wire.length ≤ reached)
    (hdo : uncertain = false → r.hadError = false ∧ copying = false ∧ w.session.extCycle = none)
    (hd : runsDrop texts w.ready (w.taken ++ w.takes ext reached) = false)
    (hf : (w.session.extCycle.elim [] TrExtCycle.frames ++ ext.wire).foldlM
      (noteDefinition cfg ext.registry uncertain) (w.session.acked, false) = .ok (acked, forgets)) :
    Held acked (takeAll texts w.ready (w.taken ++ w.takes ext reached)) := by
  cases uncertain with
  | true =>
    intro name a hfo
    obtain ⟨hth, ho⟩ := foldlM_noteDefinition_failed _ hf name a hfo
    obtain ⟨hn, hh⟩ := ht.held name a hth
    refine ⟨hn, (takeAll_statements _ (fun f hm hna => ?_) hd).trans hh⟩
    apply ho hn f _ hna
    rcases mem_append.mp hm with hol | hne
    · have hr := ht.retained.resolve_left (by simp [hk])
      exact mem_append_left _ (hr f hol name hn hna)
    · exact mem_append_right _ (mem_wire_of_takes hne)
  | false =>
    obtain ⟨hs, hdon, hno⟩ := hdo rfl
    obtain ⟨hnot, hre⟩ := ht.idle (ht.closed hno hk)
    rw [takes_of_sure ha hs hdon hre, hnot] at hd ⊢
    rw [hno] at hf
    exact ht.held.takeAll ext.wire hd hf

theorem Tracked.sync (ht : w.Tracked) (hre : w.session.recordTx)
    (hse : w.Seen texts (.sync ext reached r copying))
    (hst : w.step texts cfg (.sync ext reached r copying) = some w') : w'.Tracked := by
  obtain ⟨ha, ⟨⟩⟩ := ite_none_right_eq_some.mp hst
  have ho : ({ w.session.answeredCycle r with copyInProgress := copying } : Session).recordTx :=
    hre
  rw [trAfterExtended, if_pos ho]
  obtain ⟨-, -, -, hac⟩ := trAfterSync_notes cfg r
    { w.session.answeredCycle r with copyInProgress := copying } ext
  refine ⟨?_, fun _ => ⟨rfl, rfl⟩, fun _ _ => rfl, .inr (by simp)⟩
  suffices hh : Held (trAfterSync cfg r ext { w.session.answeredCycle r with copyInProgress := copying }).acked
      (takeAll texts (w.now texts) (w.takes ext reached)) by
    intro name a hfo
    rw [readied_statements]
    exact hh name a hfo
  rcases hac with hn | hno
  · rw [hn]
    exact held_nil _
  rw [hno]
  rcases @trNoteDefinitions_cases cfg ext.registry _ _ _ with hn | ⟨hu, forgets, hf⟩
  · rw [hn]
    exact held_nil _
  have hdr := mt hse.1 (fun hto => Bool.false_ne_true (hu.symm.trans hto))
  rw [not_or] at hdr
  have hr : runsDrop texts (w.now texts) (w.takes ext reached) = false := by simpa using hdr.2
  replace hf : (w.session.extCycle.elim [] TrExtCycle.frames ++ ext.wire).foldlM
      (noteDefinition cfg ext.registry (r.hadError || w.session.extCycle.isSome || copying))
      (if w.session.extCycleDropped then [] else w.session.acked, false) = .ok (_, forgets) := hf
  have hdo : (r.hadError || w.session.extCycle.isSome || copying) = false →
      r.hadError = false ∧ copying = false ∧ w.session.extCycle = none := by
    simp only [Bool.or_eq_false_iff, isSome_eq_false_iff, isNone_iff_eq_none]
    tauto
  cases hd : w.session.extCycleDropped with
  | true =>
    simp only [hd] at hf
    refine held_dropped ha.2 (fun hs => ?_) (hse.2 hd) hr hf
    obtain ⟨hs, hdon, hn⟩ := hdo hs
    exact ⟨hs, hdon, by rw [hn]; rfl⟩
  | false =>
    simp only [hd] at hf
    rw [now, ← takeAll_append]
    refine held_retained ht hd ha.2 hdo ?_ hf
    rw [runsDrop_append, Bool.or_eq_false_iff]
    exact ⟨by simpa [hd] using hdr.1, hr⟩

theorem tracked_new (mode : TrMode) : (new mode).Tracked where
  held := held_nil _
  idle _ := ⟨rfl, rfl⟩
  closed _ _ := rfl
  retained := .inr (by simp [new])

variable {e : AckEvent}

theorem step_mode (hs : w.step texts cfg e = some w') :
    w'.session.mode = w.session.mode := by
  cases e with
  | simple stmts ran r copying | raw query dropped r copying =>
    obtain ⟨-, ⟨⟩⟩ := ite_none_left_eq_some.mp hs
    exact (trAfterSimple_notes cfg r _ _).1
  | sync ext reached r copying =>
    obtain ⟨-, ⟨⟩⟩ := ite_none_right_eq_some.mp hs
    simp only [trAfterExtended]
    split
    · exact (trAfterSync_notes cfg r _ ext).1
    · rfl
  | flush ext reached room =>
    obtain ⟨-, ⟨⟩⟩ := ite_none_right_eq_some.mp hs
    simp only [trAfterExtendedFlush]
    split
    · obtain ⟨ts, -, hc⟩ | ⟨writes, hc⟩ := @trAfterFlush_cases cfg room ext w.session
      · rw [hc]
      · rw [hc]
    · rfl

theorem step_acked_of_off (ho : w.session.recordTx = false) (hn : w.session.acked = [])
    (hs : w.step texts cfg e = some w') : w'.session.acked = [] := by
  cases e with
  | simple stmts ran r copying | raw query dropped r copying =>
    obtain ⟨-, ⟨⟩⟩ := ite_none_left_eq_some.mp hs
    rw [(trAfterSimple_notes cfg r _ _).2.2.2]
    split
    · rfl
    · exact hn
  | sync ext reached r copying =>
    obtain ⟨-, ⟨⟩⟩ := ite_none_right_eq_some.mp hs
    have hsi : ({ w.session.answeredCycle r with copyInProgress := copying } : Session).recordTx = false :=
      ho
    simp only [trAfterExtended, hsi]
    exact hn
  | flush ext reached room =>
    obtain ⟨-, ⟨⟩⟩ := ite_none_right_eq_some.mp hs
    simp only [trAfterExtendedFlush, ho]
    exact hn

structure Inv (w : AckWorld) : Prop where
  on : w.session.recordTx = true → w.Tracked
  off : w.session.recordTx = false → w.session.acked = []

theorem Inv.step (hi : w.Inv) (hse : w.Seen texts e)
    (hs : w.step texts cfg e = some w') : w'.Inv := by
  have hsa : w'.session.recordTx = w.session.recordTx := by
    rw [Session.recordTx, Session.recordTx, step_mode hs]
  refine ⟨fun ho => ?_, fun hof => step_acked_of_off (hsa ▸ hof) (hi.off (hsa ▸ hof)) hs⟩
  rw [hsa] at ho
  cases e with
  | simple => exact (hi.on ho).simple hse hs
  | raw => exact Tracked.raw hs
  | sync => exact (hi.on ho).sync ho hse hs
  | flush => exact (hi.on ho).flush ho hs

end AckWorld

/-- Along every run of queries, cycles and chunks in which everything that changes the
named statements of the backend is where the proxy looks for it, every acknowledged
statement is on the backend, whenever no cycle is open. -/
theorem acked_held (texts : Deallocations) (cfg : Settings) (mode : TrMode) (es : List AckEvent)
    (w : AckWorld)
    (hseen : Along (AckWorld.step texts cfg) (AckWorld.Seen texts) (.new mode) es)
    (hran : run (AckWorld.step texts cfg) (.new mode) es = some w) : w.AckedHeld texts := by
  have hinv : w.Inv := run_invariant_along (fun _ _ _ hinv hseen hstepped => hinv.step hseen hstepped)
    ⟨fun _ => AckWorld.tracked_new mode, fun _ => rfl⟩ hseen hran
  intro hclosed name a hfound
  cases hrecording : w.session.recordTx with
  | true =>
    have htracked := hinv.on hrecording
    rw [AckWorld.now, (htracked.idle hclosed).1]
    exact (htracked.held name a hfound).2
  | false =>
    rw [hinv.off hrecording] at hfound
    cases hfound

/-- A backend on which one text drops the statement `x`, by itself or by an `EXECUTE` of the
statement `d` with that text. -/
def deallocateX : Deallocations where
  own sql := if sql = "DEALLOCATE x" then .one "x" else .nothing
  drops held sql :=
    if sql = "DEALLOCATE x" ∨ sql = "EXECUTE d" ∧
      (held (.text "d")).bind parseMsgSql = some "DEALLOCATE x".toList then .one "x"
    else .nothing
  keyword sql hd := by
    have ht : sql = "DEALLOCATE x" := by
      by_contra ho
      exact hd (if_neg ho)
    exact .inl ⟨[], "DEALLOCATE", " x", by decide, ht, rfl, by decide⟩

/-- A batch of frames, behind which the statement `x` is registered as `SELECT 1`, that is
answered without an error. -/
def batchOf (defines : List Str) (bodies : List FrameBody) : AckEvent :=
  let x := Frame.mk [] (.parse (.text "x") (.text "SELECT 1"))
  .sync ⟨bodies.map (Frame.mk []) ++ [Frame.mk [] .sync], none, defines, none, [], [("x", x)]⟩
    (bodies.length + 1) ⟨.idle, false, 0, false, false, true, []⟩ false

/-- A statement is acknowledged and run, by a cycle and by a query, behind a cycle that parses
a `DEALLOCATE` of it and closes it again. -/
theorem acked_held_deallocate :
    let cfg : Settings := ⟨8, 8, 100, fun _ => false, fun _ => []⟩
    let d : WireStr := .text "d"
    let x : WireStr := .text "x"
    let es : List AckEvent :=
      [batchOf ["d"] [.parse d (.text "DEALLOCATE x"), .bind unnamed d, .close 'S' d],
        batchOf ["x"] [.parse x (.text "SELECT 1")],
        batchOf [] [.bind unnamed x, .execute unnamed],
        .simple ["EXECUTE x", "SELECT 2"] 2 ⟨.idle, false, 0, false, false, true, []⟩ false]
    ∃ w, run (AckWorld.step deallocateX cfg) (.new .transaction) es = some w ∧
      (w.session.acked.get "x").isSome = true ∧ w.AckedHeld deallocateX := by
  intro cfg d x es
  refine ⟨_, rfl, by decide, ?_⟩
  exact acked_held deallocateX cfg .transaction es _ (by decide) rfl

/-- A `DEALLOCATE` that was prepared in an earlier cycle is run: the proxy still has the
statement it drops for acknowledged. -/
theorem not_acked_held :
    let cfg : Settings := ⟨8, 8, 100, fun _ => false, fun _ => []⟩
    let d : WireStr := .text "d"
    let x : WireStr := .text "x"
    let es : List AckEvent :=
      [batchOf ["d"] [.parse d (.text "DEALLOCATE x")],
        batchOf ["x"] [.parse x (.text "SELECT 1")],
        batchOf [] [.bind unnamed d, .execute unnamed]]
    ∃ w, run (AckWorld.step deallocateX cfg) (.new .transaction) es = some w ∧
      w.cycleOpen = false ∧ (w.session.acked.get "x").isSome = true ∧
      (w.now deallocateX).statements x = none ∧ ¬ w.AckedHeld deallocateX := by
  intro cfg d x es
  have hgone : ∃ w, run (AckWorld.step deallocateX cfg) (.new .transaction) es = some w ∧
      w.cycleOpen = false ∧ (w.session.acked.get "x").isSome = true ∧
      (w.now deallocateX).statements x = none :=
    ⟨_, rfl, rfl, by decide, by decide +kernel⟩
  obtain ⟨w, hran, hclosed, hacked, hdropped⟩ := hgone
  refine ⟨w, hran, hclosed, hacked, hdropped, fun hheld => ?_⟩
  obtain ⟨a, hfound⟩ := isSome_iff_exists.mp hacked
  rw [hheld hclosed _ a hfound] at hdropped
  cases hdropped

end HeliosProxy.Replay
