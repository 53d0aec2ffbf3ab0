import HeliosProxy.Lib.Runs
import HeliosProxy.Postgres.Savepoints
import HeliosProxy.Postgres.SessionState
import HeliosProxy.Replay.LeadWords

/-!
# Settings and savepoints

The settings a transaction makes are kept until it ends, with a record of its
savepoints, of which there are at most `cap`: past it the records start over.
PostgreSQL keeps every savepoint on its stack.

A name with Unicode escapes is recorded as `u`, whatever it is.

A `ROLLBACK TO` a savepoint without a record makes the settings unknown, or finds none
to undo.  A `RELEASE` of one leaves the inner records behind, and a later `ROLLBACK TO`
may take one of those for an outer savepoint of the same name.  Where it does not come
to that, the settings that are kept are those that survive.
-/

namespace HeliosProxy.Replay

open Text Journal Postgres List Option Char

inductive GucOp
  | set (sql : Str)
  | reset (name : Str)
  | resetAll
  | discardAll
deriving DecidableEq

/-- What `TrSession` keeps of the open transaction's settings. -/
structure TxSettings where
  pendingTxGucs : List GucOp
  /-- The savepoints, each with the number of settings pending when it was taken. -/
  txSavepoints : List (Str × Nat)
  txGucsUnknown : Bool
deriving DecidableEq

/-- `iter().rposition`: the last place where a test holds. -/
def rposition {α : Type} (p : α → Bool) (l : List α) : Option Nat :=
  (l.reverse.findIdx? p).map fun i => l.length - 1 - i

/-- `replace("\"\"", "\"")`. -/
def undoubleQuotes : Str → Str
  | '"' :: '"' :: s => '"' :: undoubleQuotes s
  | c :: s => c :: undoubleQuotes s
  | [] => []

def wordName (text : Str) (quoted : Bool) : Str :=
  if quoted then undoubleQuotes (text.drop 1).dropLast else text.map toLower

namespace TxSettings

def unknownRollback (tr : TxSettings) : TxSettings :=
  if tr.pendingTxGucs.isEmpty then tr else { tr with txGucsUnknown := true }

def noteTaken (tr : TxSettings) (cap : Nat) (n : Str) : TxSettings :=
  -- a `ROLLBACK TO` a dropped record finds none
  let kept := if cap ≤ tr.txSavepoints.length then [] else tr.txSavepoints
  { tr with txSavepoints := kept ++ [(n, tr.pendingTxGucs.length)] }

def noteReleased (tr : TxSettings) (n : Str) : TxSettings :=
  match rposition (fun s => s.1 = n) tr.txSavepoints with
  | some i => { tr with txSavepoints := tr.txSavepoints.take i }
  | none => tr

def noteRolledBack (tr : TxSettings) (n : Option Str) : TxSettings :=
  match n.bind fun n => rposition (fun s => s.1 = n) tr.txSavepoints with
  | some i =>
    { tr with
      pendingTxGucs := tr.pendingTxGucs.take ((tr.txSavepoints[i]?).elim 0 Prod.snd)
      txSavepoints := tr.txSavepoints.take (i + 1) }
  | none => tr.unknownRollback

def trNoteSavepoint (tr : TxSettings) (sql : Str) (cap : Nat) : TxSettings :=
  match trLeadWords sql 6 with
  | none => tr.unknownRollback
  | some w =>
    let kw := trWordIs w
    let name := fun i => (w[i]?).map fun x => wordName x.text x.quoted
    -- the noise word `SAVEPOINT`, unless it is the name itself
    let skipNoise := fun i => if kw i "SAVEPOINT" && i + 1 < w.length then i + 1 else i
    if kw 0 "SAVEPOINT" then (name 1).elim tr (tr.noteTaken cap)
    else if kw 0 "RELEASE" then (name (skipNoise 1)).elim tr tr.noteReleased
    else if kw 0 "ROLLBACK" then
      let at' := if kw 1 "WORK" || kw 1 "TRANSACTION" then 2 else 1
      if !kw at' "TO" then tr else tr.noteRolledBack (name (skipNoise (at' + 1)))
    else tr

end TxSettings

/-! ## Statements -/

/-- A text of a name with Unicode escapes, and the name PostgreSQL reads. -/
inductive UnicodeName : Str → Str → Prop
  | backslash {u : Char} {body read : Str} (hu : u.toLower = 'u') (hread : Postgres.unescape '\\' 0 body = some read) :
    UnicodeName (u :: '&' :: quoteIdent body) read
  | uescape {u escape : Char} {body g w g' read : Str} (hu : u.toLower = 'u')
    (hread : Postgres.unescape escape 0 body = some read) (hg : Gap g) (hw : IsKeyword "UESCAPE" w) (hg' : Gap g') :
    UnicodeName (u :: '&' :: quoteIdent body ++ (g ++ (w ++ (g' ++ ['\'', escape, '\''])))) read

inductive SavepointName
  | plain (n : Identifier)
  | quoted (body : Str) (hn : body ≠ []) (hf : '\x00' ∉ body)
  | unicode (text read : Str) (h : UnicodeName text read) (hn : read ≠ []) (hf : '\x00' ∉ read)

namespace SavepointName

def text : SavepointName → Str
  | .plain n => n.text
  | .quoted body _ _ => quoteIdent body
  | .unicode text _ _ _ _ => text

def isQuoted : SavepointName → Bool
  | .quoted _ _ _ => true
  | _ => false

def isUnicode : SavepointName → Bool
  | .unicode _ _ _ _ _ => true
  | _ => false

def folded : SavepointName → Str
  | .plain n => n.text.map toLower
  | .quoted body _ _ => body
  | .unicode _ read _ _ _ => read

def means (n : SavepointName) : Str := clip 63 n.folded

end SavepointName

/-- The word that may stand behind `ROLLBACK`. -/
inductive BlockWord
  | none
  | work
  | transaction

def BlockWord.keywords : BlockWord → List String
  | .none => []
  | .work => ["WORK"]
  | .transaction => ["TRANSACTION"]

/-- What a statement does with its savepoint, and whether it has the noise word. -/
inductive SavepointVerb
  | savepoint
  | release (noise : Bool)
  | rollbackTo (block : BlockWord) (noise : Bool)

namespace SavepointVerb

def noiseWord (noise : Bool) : List String := if noise then ["SAVEPOINT"] else []

def keywords : SavepointVerb → List String
  | .savepoint => ["SAVEPOINT"]
  | .release noise => "RELEASE" :: noiseWord noise
  | .rollbackTo block noise => "ROLLBACK" :: (block.keywords ++ "TO" :: noiseWord noise)

def stmt (n : Str) : SavepointVerb → NamedStmt GucOp
  | .savepoint => .savepoint n
  | .release _ => .release n
  | .rollbackTo _ _ => .rollbackTo n

end SavepointVerb

inductive StatementEnd : Str → Prop
  | gap {g : Str} (hg : Gap g) : StatementEnd g
  | semicolon {g g' : Str} (hg : Gap g) (hg' : Gap g') : StatementEnd (g ++ ';' :: g')

/-- A text of a statement: its keywords in any case and its name, with gaps between them. -/
inductive Written (v : SavepointVerb) (n : SavepointName) : Str → Prop
  | mk {ws : List Str} {body tail : Str} (hs : Forall₂ IsKeyword v.keywords ws)
      (hl : LaidOut (ws ++ [n.text]) body) (hend : StatementEnd tail) : Written v n (body ++ tail)

structure SavepointText where
  verb : SavepointVerb
  name : SavepointName
  text : Str
  written : Written verb name text

/-! ## Reading a statement -/

variable {tail : Str}

theorem StatementEnd.readsAs (h : StatementEnd tail) : ReadsAs tail [] := by
  cases h with
  | gap hg => simpa using readsAs_nil.gap hg
  | semicolon hg hg' =>
    have hlast := readsAs_nil.gap hg'
    rw [List.append_nil] at hlast
    exact hlast.semicolon.gap hg

def EndsToken (s : Str) : Prop := s.head?.all (fun d => !identCont d && d != '"') = true

variable {s : Str}

theorem endsToken_gap {g : Str} (hg : Gap g) (hs : EndsToken s) : EndsToken (g ++ s) := by
  have hhead := head_gap hg (p := fun d => !identCont d && d != '"') rfl rfl rfl
  cases g with
  | nil => exact hs
  | cons c g => exact hhead

theorem StatementEnd.endsToken (h : StatementEnd tail) : EndsToken tail := by
  cases h with
  | gap hg => simpa using endsToken_gap hg (rfl : EndsToken [])
  | semicolon hg hg' => exact endsToken_gap hg rfl

def IsWord (w : Str) (quoted : Bool) : Prop :=
  ∀ s ws, EndsToken s → ReadsAs s ws → ReadsAs (w ++ s) ((w, quoted) :: ws)

variable {w : Str}

theorem isWord_ident (hstart : w.head?.any identStart) (hcont : w.all identCont) :
    IsWord w false := by
  intro s ws hs hread
  cases w with
  | nil => cases hstart
  | cons c w =>
    have hhead : s.head?.all (!identCont ·) := by
      cases s with
      | nil => rfl
      | cons d s =>
        simp only [EndsToken, head?_cons, all_some, Bool.and_eq_true] at hs
        exact hs.1
    rw [all_cons, Bool.and_eq_true] at hcont
    exact hread.word hstart hcont.2 hhead

theorem SavepointName.isWord {n : SavepointName} (h : n.isUnicode = false) : IsWord n.text n.isQuoted := by
  cases n with
  | unicode => cases h
  | plain n => exact isWord_ident n.start n.cont
  | quoted body hn hf =>
    intro s ws hs hread
    refine hread.quoted hf ?_
    cases s with
    | nil => rfl
    | cons d s =>
      simp only [EndsToken, head?_cons, all_some, Bool.and_eq_true] at hs
      exact hs.2

variable {ps ws : List (Str × Bool)}

theorem LaidBehind.readsAs (h : LaidBehind (ps.map Prod.fst) s)
    (hps : ∀ p ∈ ps, IsWord p.1 p.2) (htail : EndsToken tail)
    (hread : ReadsAs tail ws) : EndsToken (s ++ tail) ∧ ReadsAs (s ++ tail) (ps ++ ws) := by
  induction ps generalizing s with
  | nil =>
    cases h
    exact ⟨htail, hread⟩
  | cons p ps ih =>
    cases h with
    | @cons g _ s _ hg hne hs =>
      obtain ⟨hends, hreads⟩ := ih hs fun q hq => hps q (mem_cons_of_mem _ hq)
      have hword := hps p mem_cons_self _ _ hends hreads
      rw [append_assoc, append_assoc]
      refine ⟨?_, hword.gap hg⟩
      rw [EndsToken, head?_append_of_ne_nil _ hne]
      simpa [EndsToken] using endsToken_gap hg (rfl : EndsToken [])

theorem LaidOut.readsAs (h : LaidOut (ps.map Prod.fst) s)
    (hps : ∀ p ∈ ps, IsWord p.1 p.2) (htail : EndsToken tail)
    (hread : ReadsAs tail ws) : ReadsAs (s ++ tail) (ps ++ ws) := by
  cases ps with
  | nil => cases h
  | cons p ps =>
    cases h with
    | @mk g _ s _ hg hs =>
      obtain ⟨hends, hreads⟩ :=
        LaidBehind.readsAs hs (fun q hq => hps q (mem_cons_of_mem _ hq)) htail hread
      rw [append_assoc, append_assoc]
      exact (hps p mem_cons_self _ _ hends hreads).gap hg

theorem SavepointVerb.isAlpha_keywords (v : SavepointVerb) :
    ∀ k ∈ v.keywords, k.toList ≠ [] ∧ (k.toList.map toLower).all isAlpha := by
  cases v with
  | savepoint => decide
  | release noise => cases noise <;> decide
  | rollbackTo block noise => cases block <;> cases noise <;> decide

variable {k : String}

theorem ident_of_keyword (hw : IsKeyword k w) (hne : k.toList ≠ [])
    (halpha : (k.toList.map toLower).all isAlpha) :
    w.head?.any identStart ∧ w.all identCont := by
  have hall : w.all isAlpha := hw.all_isAlpha halpha
  refine ⟨?_, List.all_eq_true.mpr fun c hc => ?_⟩
  · cases w with
    | nil => exact absurd rfl (hw.ne_nil hne)
    | cons c w =>
      rw [all_cons, Bool.and_eq_true] at hall
      simp [identStart, hall.1]
  · simp [identCont, identStart, List.all_eq_true.mp hall c hc]

theorem isWord_keyword (hw : IsKeyword k w) (hne : k.toList ≠ [])
    (halpha : (k.toList.map toLower).all isAlpha) : IsWord w false :=
  isWord_ident (ident_of_keyword hw hne halpha).1 (ident_of_keyword hw hne halpha).2

theorem exists_keyword {ks : List String} {ws : List Str} (h : Forall₂ IsKeyword ks ws)
    (hw : w ∈ ws) : ∃ k ∈ ks, IsKeyword k w := by
  induction h with
  | nil => cases hw
  | @cons k w' ks ws hk _ ih =>
    rcases mem_cons.mp hw with rfl | hw
    · exact ⟨k, mem_cons_self, hk⟩
    · obtain ⟨k', hk', h⟩ := ih hw
      exact ⟨k', mem_cons_of_mem _ hk', h⟩

variable {v : SavepointVerb} {n : SavepointName} {text : Str}

theorem Written.readsAs (h : Written v n text) (hu : n.isUnicode = false) :
    ∃ ws, Forall₂ IsKeyword v.keywords ws ∧
      ReadsAs text (ws.map (·, false) ++ [(n.text, n.isQuoted)]) := by
  obtain ⟨hs, hl, hend⟩ := h
  rename_i ws body tail
  refine ⟨ws, hs, ?_⟩
  have hfst : (ws.map (·, false) ++ [(n.text, n.isQuoted)]).map Prod.fst = ws ++ [n.text] := by
    simp [Function.comp_def]
  have hwords : ∀ p ∈ ws.map (·, false) ++ [(n.text, n.isQuoted)], IsWord p.1 p.2 := by
    intro p hp
    rcases mem_append.mp hp with hp | hp
    · obtain ⟨w, hw, rfl⟩ := List.mem_map.mp hp
      obtain ⟨k, hk, hkw⟩ := exists_keyword hs hw
      exact isWord_keyword hkw (v.isAlpha_keywords k hk).1 (v.isAlpha_keywords k hk).2
    · rw [mem_singleton.mp hp]
      exact SavepointName.isWord hu
  simpa using LaidOut.readsAs (hfst ▸ hl) hwords hend.endsToken hend.readsAs

theorem undoubleQuotes_doubleQuotes (body : Str) : undoubleQuotes (doubleQuotes body) = body := by
  induction body with
  | nil => rfl
  | cons c body ih =>
    by_cases hc : c = '"'
    · rw [hc]
      exact congrArg ('"' :: ·) ih
    · have hcons : doubleQuotes (c :: body) = c :: doubleQuotes body := by
        rw [doubleQuotes, flatMap_cons, if_neg hc]
        rfl
      rw [hcons, undoubleQuotes, ih]
      exact fun _ hq => absurd hq hc

theorem SavepointName.wordName_text {n : SavepointName} (h : n.isUnicode = false) :
    wordName n.text n.isQuoted = n.folded := by
  cases n with
  | unicode => cases h
  | plain n => rfl
  | quoted body hn hf =>
    show undoubleQuotes (doubleQuotes body ++ ['"']).dropLast = body
    rw [dropLast_concat, undoubleQuotes_doubleQuotes]

def TxSettings.note (tr : TxSettings) (cap : Nat) : NamedStmt GucOp → TxSettings
  | .write op => { tr with pendingTxGucs := tr.pendingTxGucs ++ [op] }
  | .savepoint n => tr.noteTaken cap n
  | .release n => tr.noteReleased n
  | .rollbackTo n => tr.noteRolledBack (some n)

theorem SavepointVerb.length_keywords (v : SavepointVerb) : v.keywords.length ≤ 4 := by
  cases v with
  | savepoint => decide
  | release noise => cases noise <;> decide
  | rollbackTo block noise => cases block <;> cases noise <;> decide

theorem trWordIs_eq (l : List Word) (i : Nat) (k : Str) :
    trWordIs l i k =
      (l.map fun w => (w.text, w.quoted))[i]?.any fun p => !p.2 && eqIgnoreCase p.1 k := by
  simp only [trWordIs, head?_drop, getElem?_map, Option.any_map]

theorem wordName_eq (l : List Word) (i : Nat) :
    (l[i]?.map fun x => wordName x.text x.quoted) =
      (l.map fun w => (w.text, w.quoted))[i]?.map fun p => wordName p.1 p.2 := by
  rw [getElem?_map, Option.map_map]
  rfl

theorem spelled_to {noise : Bool} {us : List Str}
    (h : Forall₂ IsKeyword ("TO" :: SavepointVerb.noiseWord noise) us) :
    ∃ t, IsKeyword "TO" t ∧ (noise = false ∧ us = [t] ∨
      noise ∧ ∃ u, IsKeyword "SAVEPOINT" u ∧ us = [t, u]) := by
  obtain ⟨t, _, ht, hnoise, rfl⟩ := forall₂_cons_left_iff.mp h
  refine ⟨t, ht, ?_⟩
  cases noise with
  | false => exact .inl ⟨rfl, by rw [forall₂_nil_left_iff.mp hnoise]⟩
  | true =>
    obtain ⟨u, _, hu, hnil, rfl⟩ := forall₂_cons_left_iff.mp hnoise
    exact .inr ⟨rfl, u, hu, by rw [forall₂_nil_left_iff.mp hnil]⟩

theorem TxSettings.trNoteSavepoint_eq
    (h : Written v n text) (hu : n.isUnicode = false) (tr : TxSettings) (cap : Nat) :
    tr.trNoteSavepoint text cap = tr.note cap (v.stmt n.folded) := by
  obtain ⟨ws, hs, hread⟩ := h.readsAs hu
  have hlen := hs.length_eq
  have hbound := v.length_keywords
  obtain ⟨l, hl, hpairs⟩ := hread.leadWords (n := 6) (by
    rw [length_append, length_map, length_singleton]
    omega)
  have hl' : l.length = ws.length + 1 := by
    rw [← length_map (fun w : Word => (w.text, w.quoted)), hpairs]
    simp
  rw [trNoteSavepoint, hl]
  simp only [trWordIs_eq, wordName_eq, hpairs, hl']
  have hname := SavepointName.wordName_text hu
  cases v with
  | savepoint =>
    obtain ⟨w, _, hw, hnil, rfl⟩ := forall₂_cons_left_iff.mp hs
    obtain rfl := forall₂_nil_left_iff.mp hnil
    simp [eqIgnoreCase, hw.map_toLower, hname, note, SavepointVerb.stmt]
  | release noise =>
    obtain ⟨w, ws', hw, hnoise, rfl⟩ := forall₂_cons_left_iff.mp hs
    cases noise with
    | false =>
      obtain rfl := forall₂_nil_left_iff.mp hnoise
      simp [eqIgnoreCase, hw.map_toLower, hname, note, SavepointVerb.stmt]
    | true =>
      obtain ⟨w', _, hw', hnil, rfl⟩ := forall₂_cons_left_iff.mp hnoise
      obtain rfl := forall₂_nil_left_iff.mp hnil
      simp [eqIgnoreCase, hw.map_toLower, hw'.map_toLower, hname, note, SavepointVerb.stmt]
  | rollbackTo block noise =>
    obtain ⟨w, ws', hw, hrest, rfl⟩ := forall₂_cons_left_iff.mp hs
    cases block with
    | none =>
      obtain ⟨t, ht, ⟨rfl, rfl⟩ | ⟨rfl, u, hu, rfl⟩⟩ := spelled_to hrest
      · simp [eqIgnoreCase, hw.map_toLower, ht.map_toLower, hname, note, SavepointVerb.stmt]
      · simp [eqIgnoreCase, hw.map_toLower, ht.map_toLower, hu.map_toLower, hname, note,
          SavepointVerb.stmt]
    | work | transaction =>
      obtain ⟨b, _, hb, hto, rfl⟩ := forall₂_cons_left_iff.mp hrest
      obtain ⟨t, ht, ⟨rfl, rfl⟩ | ⟨rfl, u, hu, rfl⟩⟩ := spelled_to hto
      · simp [eqIgnoreCase, hw.map_toLower, hb.map_toLower, ht.map_toLower, hname, note,
          SavepointVerb.stmt]
      · simp [eqIgnoreCase, hw.map_toLower, hb.map_toLower, ht.map_toLower, hu.map_toLower, hname, note,
          SavepointVerb.stmt]

/-! ## Records and the stack -/

open Transaction (downToName)

/-- The place `rposition` finds, seen from the innermost record. -/
theorem rposition_cases (l : List (Str × Nat)) (n : Str) :
    (rposition (fun s => s.1 = n) l = none ∧ downToName l.reverse n = []) ∨
      ∃ i s outer, rposition (fun s => s.1 = n) l = some i ∧ downToName l.reverse n = s :: outer ∧
        (l.take i).reverse = outer ∧ (l.take (i + 1)).reverse = s :: outer ∧ l[i]? = some s := by
  have hsplit : l.reverse.takeWhile (fun s => s.1 ≠ n) ++ downToName l.reverse n = l.reverse :=
    takeWhile_append_dropWhile
  have hnone : (l.reverse.takeWhile fun s => s.1 ≠ n).findIdx? (fun s => s.1 = n) = none := by
    rw [findIdx?_eq_none_iff]
    intro s hs
    simpa using mem_takeWhile_imp hs
  generalize l.reverse.takeWhile (fun s => s.1 ≠ n) = front at hsplit hnone
  have hidx : rposition (fun s => s.1 = n) l =
      (((downToName l.reverse n).findIdx? fun s => s.1 = n).map (· + front.length)).map
        fun i => l.length - 1 - i := by
    rw [rposition]
    conv_lhs => rw [← hsplit]
    rw [findIdx?_append, hnone, none_or]
  rw [hidx]
  cases hdown : downToName l.reverse n with
  | nil => exact .inl ⟨rfl, rfl⟩
  | cons s outer =>
    have hs : s.1 = n := by
      have := head?_dropWhile_not (fun s : Str × Nat => decide (s.1 ≠ n)) l.reverse
      rw [show l.reverse.dropWhile (fun s => decide (s.1 ≠ n)) = s :: outer from hdown] at this
      simpa using this
    rw [hdown] at hsplit
    have hl : l = outer.reverse ++ s :: front.reverse := by
      rw [← reverse_reverse l, ← hsplit]
      simp
    have hi : l.length - 1 - front.length = outer.reverse.length := by
      rw [hl]
      simp only [length_append, length_cons, length_reverse]
      omega
    refine .inr ⟨outer.reverse.length, s, outer, ?_, rfl, ?_, ?_, ?_⟩
    · simp [findIdx?_cons, hs, hi]
    · rw [hl, take_left, reverse_reverse]
    · rw [hl, take_length_add_append]
      simp
    · rw [hl, getElem?_append_right (le_refl _), Nat.sub_self]
      rfl

theorem downToName_append (inner outer : List (Str × Nat)) (n : Str) :
    downToName (inner ++ outer) n =
      if downToName inner n = [] then downToName outer n else downToName inner n ++ outer := by
  have happend : downToName (inner ++ outer) n =
      if (downToName inner n).isEmpty then downToName outer n else downToName inner n ++ outer :=
    dropWhile_append
  cases hin : downToName inner n <;> simp [happend, hin]

theorem downToName_subset (l : List (Str × Nat)) (n : Str) : downToName l n ⊆ l :=
  (dropWhile_sublist _).subset

/-- The records are the innermost savepoints, or those and others in front of no setting,
while no setting stands in front of what PostgreSQL has instead. -/
structure Mirrors (tr : TxSettings) (pg : Transaction GucOp) : Prop where
  pending : tr.pendingTxGucs = pg.writes
  ordered : pg.Ordered
  records : ∃ inner stale old, tr.txSavepoints.reverse = inner ++ stale ∧ pg.savepoints = inner ++ old ∧
    (stale = [] ∨ (∀ s ∈ stale, s.2 = 0) ∧ ∀ s ∈ old, s.2 = 0)

namespace Mirrors

variable {tr : TxSettings} {pg pg' : Transaction GucOp} (h : Mirrors tr pg)
include h

theorem zeros (hnil : tr.pendingTxGucs = []) :
    (∀ s ∈ tr.txSavepoints.reverse, s.2 = 0) ∧ ∀ s ∈ pg.savepoints, s.2 = 0 := by
  obtain ⟨inner, stale, old, hrecords, hpg, hstale⟩ := h.records
  have hzero : ∀ s ∈ pg.savepoints, s.2 = 0 := by
    intro s hs
    have hle := h.ordered.within s hs
    rw [← h.pending, hnil] at hle
    exact Nat.le_zero.mp hle
  refine ⟨fun s hs => ?_, hzero⟩
  rw [hrecords] at hs
  rcases mem_append.mp hs with hs | hs
  · exact hzero s (hpg ▸ mem_append_left _ hs)
  · rcases hstale with rfl | ⟨hstale, -⟩
    · cases hs
    · exact hstale s hs

theorem taken (cap : Nat) (n : Str) :
    Mirrors (tr.noteTaken cap n) { pg with savepoints := (n, pg.writes.length) :: pg.savepoints } := by
  obtain ⟨inner, stale, old, hrecords, hpg, hstale⟩ := h.records
  refine ⟨h.pending, @Transaction.Ordered.exec _ _ _ (.savepoint n) h.ordered rfl, ?_⟩
  simp only [TxSettings.noteTaken]
  split
  · exact ⟨[(n, tr.pendingTxGucs.length)], [], pg.savepoints, rfl, by rw [h.pending]; rfl, .inl rfl⟩
  · refine ⟨(n, tr.pendingTxGucs.length) :: inner, stale, old, ?_, ?_, hstale⟩
    · rw [reverse_concat, hrecords]
      rfl
    · rw [h.pending, hpg]
      rfl

variable {n : Str}

/-- The two stacks below a savepoint of the name: both come to it, or the proxy has no
record of it, or both come to one in front of no setting. -/
theorem downTo {s : Str × Nat} {outer : List (Str × Nat)}
    (hpg : downToName pg.savepoints n = s :: outer) :
    (∃ outer', downToName tr.txSavepoints.reverse n = s :: outer' ∧
        ∃ inner stale old, outer' = inner ++ stale ∧ outer = inner ++ old ∧
          (stale = [] ∨ (∀ s ∈ stale, s.2 = 0) ∧ ∀ s ∈ old, s.2 = 0)) ∨
      downToName tr.txSavepoints.reverse n = [] ∨
      ∃ s' outer', downToName tr.txSavepoints.reverse n = s' :: outer' ∧
        (∀ r ∈ s' :: outer', r.2 = 0) ∧ ∀ r ∈ s :: outer, r.2 = 0 := by
  obtain ⟨inner, stale, old, hrecords, hsavepoints, hstale⟩ := h.records
  rw [hsavepoints, downToName_append] at hpg
  rw [hrecords, downToName_append]
  by_cases hin : downToName inner n = []
  · rw [if_pos hin] at hpg ⊢
    rcases hstale with rfl | ⟨hstale, hh⟩
    · exact .inr (.inl rfl)
    · cases hd : downToName stale n with
      | nil => exact .inr (.inl rfl)
      | cons s' outer' =>
        refine .inr (.inr ⟨s', outer', rfl, fun r hr => ?_, fun r hr => ?_⟩)
        · exact hstale r (downToName_subset stale n (hd ▸ hr))
        · exact hh r (downToName_subset old n (hpg ▸ hr))
  · rw [if_neg hin] at hpg ⊢
    cases hd : downToName inner n with
    | nil => exact absurd hd hin
    | cons s' inner' =>
      rw [hd] at hpg
      cases hpg
      exact .inl ⟨inner' ++ stale, rfl, inner', stale, old, rfl, rfl, hstale⟩

theorem released (hexec : pg.exec (.release n) = some pg')
    (hfound : tr.pendingTxGucs = [] ∨ tr.txSavepoints = [] ∨ ∃ s ∈ tr.txSavepoints, s.1 = n) :
    Mirrors (tr.noteReleased n) pg' := by
  have hordered := h.ordered.exec hexec
  rw [Transaction.exec] at hexec
  cases hpg : downToName pg.savepoints n with
  | nil => simp [hpg] at hexec
  | cons s outer =>
    rw [hpg] at hexec
    cases hexec
    have hsub : outer ⊆ pg.savepoints := fun r hr =>
      downToName_subset pg.savepoints n (hpg ▸ mem_cons_of_mem _ hr)
    rcases rposition_cases tr.txSavepoints n with ⟨hnone, hdown⟩ | ⟨i, s', outer', hsome, hdown, htake, -, -⟩
    · -- no record of the name: the others are those of a stack that is gone
      have htr : tr.noteReleased n = tr := by rw [TxSettings.noteReleased, hnone]
      rw [htr]
      rcases hfound with hnil | hnil | ⟨r, hr, hrn⟩
      · obtain ⟨hrecords, hpg'⟩ := h.zeros hnil
        exact ⟨h.pending, hordered, [], _, outer, rfl, rfl, .inr ⟨hrecords, fun r hr => hpg' r (hsub hr)⟩⟩
      · exact ⟨h.pending, hordered, [], [], outer, by rw [hnil]; rfl, rfl, .inl rfl⟩
      · exfalso
        have hall := dropWhile_eq_nil_iff.mp hdown r (mem_reverse.mpr hr)
        simp [hrn] at hall
    · have htr : tr.noteReleased n = { tr with txSavepoints := tr.txSavepoints.take i } := by
        rw [TxSettings.noteReleased, hsome]
      rw [htr]
      refine ⟨h.pending, hordered, ?_⟩
      rcases h.downTo hpg with ⟨o, ho, inner, stale, old, rfl, rfl, hstale⟩ | hnil | ⟨s'', o, ho, hz, hz'⟩
      · cases hdown.symm.trans ho
        exact ⟨inner, stale, old, htake, rfl, hstale⟩
      · cases hdown.symm.trans hnil
      · cases hdown.symm.trans ho
        exact ⟨[], outer', outer, htake, rfl, .inr ⟨fun r hr => hz r (mem_cons_of_mem _ hr),
          fun r hr => hz' r (mem_cons_of_mem _ hr)⟩⟩

theorem rolledBack (hexec : pg.exec (.rollbackTo n) = some pg') :
    (tr.noteRolledBack (some n)).txGucsUnknown ∨ Mirrors (tr.noteRolledBack (some n)) pg' := by
  have hordered := h.ordered.exec hexec
  rw [Transaction.exec] at hexec
  cases hpg : downToName pg.savepoints n with
  | nil => simp [hpg] at hexec
  | cons s outer =>
    rw [hpg] at hexec
    cases hexec
    rcases rposition_cases tr.txSavepoints n with ⟨hnone, -⟩ | ⟨i, s', outer', hsome, hdown, -, htake, hat⟩
    · have htr : tr.noteRolledBack (some n) = tr.unknownRollback := by
        rw [TxSettings.noteRolledBack, bind_some, hnone]
      rw [htr, TxSettings.unknownRollback]
      by_cases hnil : tr.pendingTxGucs = []
      · rw [if_pos (List.isEmpty_iff.mpr hnil)]
        obtain ⟨hrecords, hpg'⟩ := h.zeros hnil
        refine .inr ⟨?_, hordered, [], _, s :: outer, rfl, rfl, .inr ⟨hrecords, fun r hr => ?_⟩⟩
        · rw [← h.pending, hnil, take_nil]
        · exact hpg' r (downToName_subset pg.savepoints n (hpg ▸ hr))
      · rw [if_neg (mt List.isEmpty_iff.mp hnil)]
        exact .inl rfl
    · have htr : tr.noteRolledBack (some n) =
          { tr with pendingTxGucs := tr.pendingTxGucs.take s'.2, txSavepoints := tr.txSavepoints.take (i + 1) } := by
        rw [TxSettings.noteRolledBack, bind_some, hsome]
        simp only [hat, elim_some]
      rw [htr]
      refine .inr ?_
      rcases h.downTo hpg with ⟨o, ho, inner, stale, old, rfl, rfl, hstale⟩ | hnil | ⟨s'', o, ho, hz, hz'⟩
      · cases hdown.symm.trans ho
        exact ⟨by rw [h.pending], hordered, s :: inner, stale, old, htake, rfl, hstale⟩
      · cases hdown.symm.trans hnil
      · cases hdown.symm.trans ho
        have hs : s'.2 = s.2 := (hz s' mem_cons_self).trans (hz' s mem_cons_self).symm
        exact ⟨by rw [h.pending, hs], hordered, [], s' :: outer', s :: outer, htake, rfl, .inr ⟨hz, hz'⟩⟩

end Mirrors

/-! ## Runs -/

/-- The records and PostgreSQL's block, after the same statements. -/
structure OpenTx where
  tr : TxSettings
  pg : Transaction GucOp

inductive TxStep
  | set (op : GucOp)
  | savepoint (s : SavepointText)

namespace OpenTx

def begun : OpenTx := ⟨⟨[], [], false⟩, ⟨[], []⟩⟩

def step (cap : Nat) (o : OpenTx) : TxStep → Option OpenTx
  | .set op =>
    (o.pg.exec (.write op)).map fun pg =>
      ⟨{ o.tr with pendingTxGucs := o.tr.pendingTxGucs ++ [op] }, pg⟩
  | .savepoint s =>
    (o.pg.exec (s.verb.stmt s.name.means)).map fun pg => ⟨o.tr.trNoteSavepoint s.text cap, pg⟩

def Refines (o : OpenTx) : Prop := o.tr.txGucsUnknown = true ∨ o.tr.pendingTxGucs = o.pg.writes

def releases : SavepointVerb → Bool
  | .release _ => true
  | _ => false

/-- The name has no Unicode escapes and fits into 63 bytes, and a `RELEASE` finds its record
where records and pending settings are left. -/
def Recorded (o : OpenTx) : TxStep → Prop
  | .set _ => True
  | .savepoint s =>
    s.name.isUnicode = false ∧ byteLen s.name.folded ≤ 63 ∧
      (releases s.verb = true → o.tr.pendingTxGucs = [] ∨ o.tr.txSavepoints = [] ∨
        ∃ r ∈ o.tr.txSavepoints, r.1 = s.name.folded)

instance (o : OpenTx) (a : TxStep) : Decidable (o.Recorded a) := by
  cases a <;> unfold OpenTx.Recorded <;> infer_instance

end OpenTx

theorem clip_eq_self {k : Nat} (h : byteLen s ≤ k) : clip k s = s := by
  induction s generalizing k with
  | nil => cases k <;> rfl
  | cons c s ih =>
    have hlen : byteLen (c :: s) = c.utf8Size + byteLen s := sum_cons
    rw [clip, if_pos (by omega), ih (by omega)]

variable {tr : TxSettings}

theorem TxSettings.note_unknown (h : tr.txGucsUnknown) (cap : Nat)
    (stmt : NamedStmt GucOp) : (tr.note cap stmt).txGucsUnknown := by
  cases stmt with
  | write op | savepoint n => exact h
  | release n =>
    rw [note, noteReleased]
    split <;> exact h
  | rollbackTo n =>
    rw [note, noteRolledBack]
    split
    · exact h
    · rw [unknownRollback]
      split
      · exact h
      · rfl

theorem Mirrors.note {pg pg' : Transaction GucOp} (h : Mirrors tr pg) (cap : Nat)
    {stmt : NamedStmt GucOp} (hexec : pg.exec stmt = some pg')
    (hfound : ∀ n, stmt = .release n → tr.pendingTxGucs = [] ∨ tr.txSavepoints = [] ∨
      ∃ r ∈ tr.txSavepoints, r.1 = n) :
    (tr.note cap stmt).txGucsUnknown ∨ Mirrors (tr.note cap stmt) pg' := by
  cases stmt with
  | write op =>
    have hordered := h.ordered.exec hexec
    cases hexec
    exact .inr ⟨congrArg (· ++ [op]) h.pending, hordered, h.records⟩
  | savepoint n =>
    cases hexec
    exact .inr (h.taken cap n)
  | release n => exact .inr (h.released hexec (hfound n rfl))
  | rollbackTo n => exact h.rolledBack hexec

def OpenTx.Follows (o : OpenTx) : Prop := o.tr.txGucsUnknown = true ∨ Mirrors o.tr o.pg

theorem OpenTx.Follows.step {cap : Nat} {o o' : OpenTx} {a : TxStep} (h : o.Follows)
    (hrecorded : o.Recorded a) (hstep : o.step cap a = some o') : o'.Follows := by
  cases a with
  | set op =>
    cases hstep
    refine h.elim .inl fun hm => ?_
    exact @Mirrors.note _ _ _ hm cap (.write op) rfl fun n hn => by cases hn
  | savepoint s =>
    obtain ⟨hunicode, hlen, hfound⟩ := hrecorded
    obtain ⟨pg', hexec, rfl⟩ := map_eq_some_iff.mp hstep
    rw [SavepointName.means, clip_eq_self hlen] at hexec
    rw [TxSettings.trNoteSavepoint_eq s.written hunicode]
    refine h.elim (fun hu => .inl (TxSettings.note_unknown hu cap _)) fun hm => hm.note cap hexec ?_
    intro n hn
    cases hv : s.verb with
    | savepoint | rollbackTo block noise =>
      rw [hv] at hn
      cases hn
    | release noise =>
      rw [hv] at hn hfound
      cases hn
      exact hfound rfl

/-- The settings pending are those that survive, or they are given up, whatever the cap. -/
theorem pending_settings_survive (cap : Nat) (steps : List TxStep) {o : OpenTx}
    (hrecorded : Runs.Along (OpenTx.step cap) OpenTx.Recorded .begun steps)
    (hran : Runs.run (OpenTx.step cap) .begun steps = some o) : o.Refines := by
  have hbegun : OpenTx.Follows .begun := .inr ⟨rfl, Transaction.ordered_nil [], [], [], [], rfl, rfl, .inl rfl⟩
  have hfollows : o.Follows :=
    Runs.run_invariant_along (fun _ _ _ h hr hs => h.step hr hs) hbegun hrecorded hran
  exact hfollows.imp id Mirrors.pending

theorem laidBehind_spaced (ws : List Str) : LaidBehind ws (ws.flatMap (' ' :: ·)) := by
  induction ws with
  | nil => exact .nil
  | cons w ws ih => exact .cons (.blank rfl .nil) (by simp) ih

def spacedStatement (v : SavepointVerb) (n : Identifier) : SavepointText where
  verb := v
  name := .plain n
  text := ((v.keywords.map String.toList ++ [n.text]).flatMap (' ' :: ·)).drop 1 ++ []
  written := by
    refine @Written.mk _ _ (v.keywords.map String.toList) _ _ ?_ ?_ (.gap .nil)
    · exact forall₂_map_right_iff.mpr (forall₂_same.mpr fun k _ => by simp [IsKeyword, eqIgnoreCase])
    · cases hk : v.keywords.map String.toList with
      | nil =>
        have := laidBehind_spaced []
        exact .mk (g := []) .nil this
      | cons w ws => exact .mk (g := []) .nil (laidBehind_spaced (ws ++ [n.text]))

def savepointA : Identifier := ⟨"a", rfl, rfl⟩

def savepointB : Identifier := ⟨"b", rfl, rfl⟩

def setX : GucOp := .set "SET x = 1"

/-- The record of the inner `a` is left behind by the `RELEASE` of `b`. -/
def releaseUnrecorded : List TxStep :=
  [.savepoint (spacedStatement .savepoint savepointA), .set setX,
    .savepoint (spacedStatement .savepoint savepointB), .savepoint (spacedStatement .savepoint savepointA),
    .savepoint (spacedStatement (.release true) savepointB),
    .savepoint (spacedStatement (.rollbackTo .none false) savepointA)]

/-- With room for three records the same statements leave no setting. -/
theorem pending_settings_survive_three :
    ∃ o, Runs.run (OpenTx.step 3) .begun releaseUnrecorded = some o ∧
      o.tr = ⟨[], [("a", 0)], false⟩ ∧ o.Refines :=
  ⟨_, rfl, by decide, pending_settings_survive 3 releaseUnrecorded (by decide) rfl⟩

theorem not_pending_settings_survive :
    ∃ o, Runs.run (OpenTx.step 1) .begun releaseUnrecorded = some o ∧
      o.tr = ⟨[setX], [("a", 1)], false⟩ ∧ o.pg.writes = [] ∧ ¬ o.Refines := by
  refine ⟨_, rfl, by decide, by decide, ?_⟩
  rintro (hunknown | hpending)
  · revert hunknown
    decide
  · revert hpending
    decide

end HeliosProxy.Replay
