import HeliosProxy.Lib.Bytes
import HeliosProxy.Replay.Classify

/-!
# What an extended cycle is to a replay

`tr_extended_cycle_scan` classifies the `Execute`s of a cycle by the statements
they run, and `tr_note_definitions` keeps the named statements a backend has
acknowledged.  A name that cannot be resolved may be a `COMMIT`.
-/

namespace HeliosProxy.Replay

open Text Wire

inductive FrameBody
  | parse (name sql : WireStr)
  | bind (portal name : WireStr)
  | execute (portal : WireStr)
  | close (target : Char) (name : WireStr)
  | describe (target : Char) (name : WireStr)
  /-- A frame with the tag of one of these whose strings do not end in it. -/
  | cut (tag : Char)
  | flush
  | sync
  | unknown (tag : Char)
deriving DecidableEq

structure Frame where
  bytes : Bytes
  body : FrameBody
deriving DecidableEq

def Frame.len (f : Frame) : Nat := f.bytes.length

def framesLen (fs : List Frame) : Nat := (fs.map Frame.len).sum

theorem framesLen_append (fs gs : List Frame) : framesLen (fs ++ gs) = framesLen fs + framesLen gs := by
  rw [framesLen, List.map_append, List.sum_append, framesLen, framesLen]

theorem framesLen_toList (p : Option Frame) : framesLen p.toList = p.elim 0 Frame.len := by
  cases p with
  | none => rfl
  | some f => exact Nat.add_zero _

def parseMsgSql (f : Frame) : Option Str :=
  match f.body with
  | .parse _ sql => sql.utf8?
  | _ => none

abbrev Table (κ α : Type) := List (κ × α)

def Table.insert {κ α : Type} [DecidableEq κ] (m : Table κ α) (k : κ) (v : α) : Table κ α :=
  (k, v) :: m.filter fun e => e.1 ≠ k

def Table.remove {κ α : Type} [DecidableEq κ] (m : Table κ α) (k : κ) : Table κ α :=
  m.filter fun e => e.1 ≠ k

def Table.get {κ α : Type} [DecidableEq κ] (m : Table κ α) (k : κ) : Option α :=
  (m.find? fun e => e.1 = k).map Prod.snd

theorem Table.get_remove {κ α : Type} [DecidableEq κ] (m : Table κ α) (k k' : κ) :
    (m.remove k).get k' = if k' = k then none else m.get k' := by
  rw [get, remove, List.find?_filter]
  split
  case isTrue hs =>
    subst hs
    rw [List.find?_eq_none.mpr fun e _ => by simp, Option.map_none]
  case isFalse ho =>
    congr 2
    funext e
    by_cases hf : e.1 = k'
    · simp [hf, ho]
    · simp [hf]

theorem Table.get_insert {κ α : Type} [DecidableEq κ] (m : Table κ α) (k k' : κ) (v : α) :
    (m.insert k v).get k' = if k' = k then some v else m.get k' := by
  by_cases hs : k' = k
  · simp [get, insert, hs]
  · have hf : (m.insert k v).get k' = (m.remove k).get k' := by
      simp [get, insert, remove, Ne.symm hs]
    rw [hf, get_remove, if_neg hs, if_neg hs]

structure AckedStmt where
  parse : Frame
  kind : StmtKind

structure Settings where
  maxPreparedStatements : Nat
  maxReplayStatements : Nat
  maxReplayBytes : Nat
  /-- `TrReadPolicy::allows_call`. -/
  allowsCall : Str → Bool
  /-- `String::from_utf8_lossy`. -/
  lossy : Bytes → Str

def Settings.lossyName (cfg : Settings) : WireStr → Str
  | .text s => s
  | .raw b => cfg.lossy b

structure CycleScan where
  outside : List Str
  portalUpdates : List (Str × Option StmtKind)

structure ScanState where
  /-- `none` where closed in this cycle. -/
  statements : Table WireStr (Option StmtKind)
  portals : Table WireStr (Option StmtKind)
  usedPrior : List WireStr
  unnamedStatement : Option StmtKind
  unnamedPortal : Option StmtKind
  kind : StmtKind
  found : CycleScan

section Scan

variable (cfg : Settings) (acked : Table Str AckedStmt) (txPortals : Table Str StmtKind)

/-- `tr_prior_statement`: the statement of an earlier cycle, noted when first used. -/
def trPriorStatement (st : ScanState) (name : WireStr) : Option StmtKind × ScanState :=
  match name.utf8?.bind fun text => (acked.get text).map fun a => (text, a) with
  | none => (none, st)
  | some (text, a) =>
    if name ∈ st.usedPrior then (some a.kind, st)
    else
      (some a.kind,
        { st with
          usedPrior := st.usedPrior ++ [name]
          found := { st.found with outside := st.found.outside ++ [text] } })

/-- The kind of a cycle with an `Execute` of kind `k` more. -/
def joinKinds : StmtKind → StmtKind → StmtKind
  | .commit, _ | _, .commit => .commit
  | .write, _ | .other, _ | _, .write | _, .other => .write
  | .read, _ | _, .read => .read
  | .control, .control => .control

def scanFrame (st : ScanState) (f : Frame) : Except CycleScan ScanState :=
  match f.body with
  | .parse name sql =>
    match sql.utf8? with
    | none => .error st.found
    | some sql =>
      let kind := some (trParseKind cfg.allowsCall sql)
      if name = unnamed then .ok { st with unnamedStatement := kind }
      else if name ∈ st.usedPrior then .error st.found
      else if cfg.maxPreparedStatements ≤ st.statements.length ∧ (st.statements.get name).isNone then
        .error st.found
      else .ok { st with statements := st.statements.insert name kind }
  | .bind portal name =>
    let (bound, st) :=
      if name = unnamed then (st.unnamedStatement, st)
      else
        match st.statements.get name with
        | some defined => (defined, st)
        | none => trPriorStatement acked st name
    let bound := bound.getD .commit
    if portal = unnamed then .ok { st with unnamedPortal := some bound }
    else if cfg.maxPreparedStatements ≤ st.portals.length ∧ (st.portals.get portal).isNone then
      .error st.found
    else
      .ok { st with
        portals := st.portals.insert portal (some bound)
        found := { st.found with
          portalUpdates := st.found.portalUpdates ++ [(cfg.lossyName portal, some bound)] } }
  | .execute portal =>
    let k :=
      if portal = unnamed then st.unnamedPortal
      else
        match st.portals.get portal with
        | some bound => bound
        | none => portal.utf8?.bind txPortals.get
    let kind := joinKinds st.kind (k.getD .commit)
    if kind = .commit then .error st.found else .ok { st with kind }
  | .close 'S' name =>
    if name = unnamed then .ok { st with unnamedStatement := none }
    else .ok { st with statements := st.statements.insert name none }
  | .close 'P' name =>
    if name = unnamed then .ok { st with unnamedPortal := none }
    else
      .ok { st with
        portals := st.portals.insert name none
        found := { st.found with
          portalUpdates := st.found.portalUpdates ++ [(cfg.lossyName name, none)] } }
  | .describe 'S' name =>
    if name ≠ unnamed ∧ (st.statements.get name).isNone then .ok (trPriorStatement acked st name).2
    else .ok st
  | .describe _ _ | .cut 'D' | .flush | .sync => .ok st
  | .close _ _ | .cut _ | .unknown _ => .error st.found

/-- `tr_extended_cycle_scan`: the kind of the frames behind the held `Parse` of the
unnamed statement, and what was found in them. -/
def trExtendedCycleScan (held : Option Frame) (frames : List Frame) : StmtKind × CycleScan :=
  let start : ScanState := ⟨[], [], [], none, none, .control, ⟨[], []⟩⟩
  let scanned : Except CycleScan ScanState :=
    match held.map parseMsgSql with
    | none => frames.foldlM (scanFrame cfg acked txPortals) start
    | some none => .error start.found
    | some (some sql) =>
      frames.foldlM (scanFrame cfg acked txPortals)
        { start with unnamedStatement := some (trParseKind cfg.allowsCall sql) }
  match scanned with
  | .error found => (.commit, found)
  | .ok st => (st.kind, st.found)

end Scan

/-- One frame of `tr_note_definitions`; the flag is `forget_all`, and an error where
the frames are not read any further. -/
def noteDefinition (cfg : Settings) (registry : Table Str Frame) (hadError : Bool)
    (noted : Table Str AckedStmt × Bool) (f : Frame) :
    Except (Table Str AckedStmt) (Table Str AckedStmt × Bool) :=
  let (acked, forgetAll) := noted
  match f.body with
  | .parse name sql =>
    match name.utf8?, sql.utf8? with
    | some name, some sql =>
      let forgetAll := forgetAll || trTouchesStatements sql
      if name.isEmpty then .ok (acked, forgetAll)
      else if !hadError && registry.get name == some f then
        .ok (acked.insert name ⟨f, trParseKind cfg.allowsCall sql⟩, forgetAll)
      else .ok (acked.remove name, forgetAll)
    | _, _ => .error []
  | .cut 'P' => .error []
  | .close 'S' (.text name) => .ok (acked.remove name, forgetAll)
  | _ => .ok (acked, forgetAll)

def trNoteDefinitions (cfg : Settings) (registry : Table Str Frame) (hadError : Bool)
    (acked : Table Str AckedStmt) (frames : List Frame) : Table Str AckedStmt :=
  match frames.foldlM (noteDefinition cfg registry hadError) (acked, false) with
  | .error acked => acked
  | .ok (acked, forgetAll) => if forgetAll then [] else acked

end HeliosProxy.Replay
