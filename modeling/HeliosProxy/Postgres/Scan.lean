import HeliosProxy.Journal.Classify
import HeliosProxy.Text.Find

/-!
# PostgreSQL's scanner

The tokens PostgreSQL reads a text as, with `standard_conforming_strings` on, after
the rules of its scanner.  A token that runs to the end of the text without its
closing quote, and a number that runs into an identifier, are errors.
-/

namespace HeliosProxy.Postgres

open Text Journal List Option

/-- The string constants: `'…'`, `E'…'`, `B'…'`, `X'…'` and `U&'…'`. -/
inductive StringKind
  | plain
  | escape
  | bits
  | hex
  | unicode
deriving DecidableEq

/-- A token; the text of a constant or of a quoted identifier is the one between its
quotes, as it is written. -/
inductive SqlToken
  | ident (w : Str)
  | quoted (body : Str)
  | unicodeQuoted (body : Str)
  | string (k : StringKind) (body : Str)
  | dollar (tag body : Str)
  | param (digits : Str)
  | number (text : Str)
  | op (text : Str)
deriving DecidableEq

inductive Scanned
  | blank (c : Char)
  | comment (text : Str)
  | token (t : SqlToken)
deriving DecidableEq

/-! ## Quotes -/

/-- The text up to the closing quote `q`, and what is behind it. -/
def quotedText (q : Char) (doubles escapes : Bool) : Str → Option (Str × Str)
  | [] => none
  | [c] => if c = q then some ([], []) else none
  | c :: d :: s =>
    if c = q then
      if doubles ∧ d = q then (quotedText q doubles escapes s).map fun (t, after) => (c :: d :: t, after)
      else some ([], d :: s)
    else if escapes ∧ c = '\\' then
      (quotedText q doubles escapes s).map fun (t, after) => (c :: d :: t, after)
    else (quotedText q doubles escapes (d :: s)).map fun (t, after) => (c :: t, after)

def isNewline (c : Char) : Bool := c == '\n' || c == '\r'

/-- Past the quote that continues a constant which has just been closed: it stands
behind space with a line end in it, where line comments count as space. -/
def quoteContinue : Bool → Bool → Str → Option Str
  | _, _, [] => none
  | true, newline, c :: s =>
    if isNewline c then quoteContinue false true s else quoteContinue true newline s
  | false, newline, '-' :: '-' :: s => quoteContinue true newline s
  | false, newline, c :: s =>
    if c = '\'' then if newline then some s else none
    else if isSpace c then quoteContinue false (newline || isNewline c) s
    else none

def constantFuel (doubles escapes : Bool) : Nat → Str → Option (Str × Str)
  | 0, _ => none
  | fuel + 1, s =>
    match quotedText '\'' doubles escapes s with
    | none => none
    | some (t, after) =>
      match quoteContinue false false after with
      | none => some (t, after)
      | some s' => (constantFuel doubles escapes fuel s').map fun (t', after) => (t ++ t', after)

namespace StringKind

def doubles : StringKind → Bool
  | .bits | .hex => false
  | .plain | .escape | .unicode => true

def escapes : StringKind → Bool
  | .escape => true
  | .plain | .bits | .hex | .unicode => false

end StringKind

/-- The constant whose opening quote `c :: s` starts with, and what is behind the
quote. -/
def opensString (c : Char) (s : Str) : Option (StringKind × Str) :=
  match c, s with
  | '\'', _ => some (.plain, s)
  | 'E', '\'' :: s | 'e', '\'' :: s => some (.escape, s)
  | 'B', '\'' :: s | 'b', '\'' :: s => some (.bits, s)
  | 'X', '\'' :: s | 'x', '\'' :: s => some (.hex, s)
  | 'U', '&' :: '\'' :: s | 'u', '&' :: '\'' :: s => some (.unicode, s)
  | _, _ => none

def opensQuoted (c : Char) (s : Str) : Option ((Str → SqlToken) × Str) :=
  match c, s with
  | '"', _ => some (.quoted, s)
  | 'U', '&' :: '"' :: s | 'u', '&' :: '"' :: s => some (.unicodeQuoted, s)
  | _, _ => none

/-! ## Numbers -/

def digitRun (digit : Char → Bool) : Str → Str × Str
  | '_' :: d :: s =>
    if digit d then
      let (t, after) := digitRun digit s
      ('_' :: d :: t, after)
    else ([], '_' :: d :: s)
  | c :: s =>
    if digit c then
      let (t, after) := digitRun digit s
      (c :: t, after)
    else ([], c :: s)
  | [] => ([], [])

def baseDigit (letter : Char) : Option (Char → Bool) :=
  if letter = 'x' ∨ letter = 'X' then
    some fun c => c.isDigit || ('a' ≤ c && c ≤ 'f') || ('A' ≤ c && c ≤ 'F')
  else if letter = 'o' ∨ letter = 'O' then some fun c => '0' ≤ c && c ≤ '7'
  else if letter = 'b' ∨ letter = 'B' then some fun c => c == '0' || c == '1'
  else none

def mantissa (s : Str) : Str × Str :=
  let (whole, after) := digitRun Char.isDigit s
  match after with
  | '.' :: t =>
    if t.head? = some '.' then (whole, after)
    else if t.head?.any Char.isDigit then
      let (fraction, after) := digitRun Char.isDigit t
      (whole ++ '.' :: fraction, after)
    else (whole ++ ['.'], t)
  | _ => (whole, after)

/-- The exponent in front of a text; an error where its sign has no digits behind
it. -/
def exponent : Str → Option (Str × Str)
  | e :: s =>
    if e = 'e' ∨ e = 'E' then
      let sign := (s.take 1).filter fun c => c == '+' || c == '-'
      let t := s.drop sign.length
      if t.head?.any Char.isDigit then
        let (digits, after) := digitRun Char.isDigit t
        some (e :: sign ++ digits, after)
      else if sign.isEmpty then some ([], e :: s)
      else none
    else some ([], e :: s)
  | [] => some ([], [])

def numberAt (s : Str) : Option (Str × Str) :=
  match s with
  | '0' :: letter :: t =>
    match baseDigit letter with
    | some digit =>
      let (digits, after) := digitRun digit t
      if digits.isEmpty then none else some ('0' :: letter :: digits, after)
    | none => decimal s
  | _ => decimal s
where
  decimal (s : Str) : Option (Str × Str) :=
    let (m, after) := mantissa s
    (exponent after).map fun (e, after) => (m ++ e, after)

def runsOn (number after : Str) : Bool :=
  after.head?.any identStart ||
    (after.head?.any identCont && (number.reverse.takeWhile identCont).any identStart)

/-! ## Operators -/

def opChar (c : Char) : Bool := "~!@#^&|`?+-*/%<>=".toList.contains c

def commentAt : Str → Bool
  | '-' :: '-' :: _ | '/' :: '*' :: _ => true
  | _ => false

def operatorRun : Str → Str
  | [] => []
  | c :: s => if opChar c && !commentAt (c :: s) then c :: operatorRun s else []

def stripSigns : Str → Str
  | c :: d :: s => if c = '+' ∨ c = '-' then stripSigns (d :: s) else c :: d :: s
  | s => s

/-- The operator in front of a text.  It ends in a sign only if it holds a character
that the operators of standard SQL do not have, or is the sign. -/
def operatorAt (s : Str) : Str :=
  let run := operatorRun s
  if run.dropLast.any fun c => "~!@#^&|`?%".toList.contains c then run
  else (stripSigns run.reverse).reverse

/-- A token that starts with none of quotes, letters, digits and `$`. -/
def symbolAt (c : Char) (s : Str) : Str :=
  match c, s with
  | ':', ':' :: _ => "::"
  | ':', '=' :: _ => ":="
  | '.', '.' :: _ => ".."
  | _, _ => if opChar c then operatorAt (c :: s) else [c]

/-! ## The scanner -/

/-- What a `$` starts: a dollar-quoted constant, a parameter, or nothing else. -/
def dollarAt (s : Str) : Option (SqlToken × Str) :=
  match dollarTag ('$' :: s) with
  | some tag =>
    (findSub tag (s.drop (tag.length - 1))).map fun (body, closed) =>
      (.dollar tag body, closed.drop tag.length)
  | none =>
    let digits := s.takeWhile Char.isDigit
    let after := s.dropWhile Char.isDigit
    if digits.isEmpty then some (.op ['$'], s)
    else if after.head?.any identStart then none
    else some (.param digits, after)

/-- The token `c :: s` starts with. -/
def tokenAt (c : Char) (s : Str) : Option (SqlToken × Str) :=
  match opensString c s with
  | some (k, s) =>
    (constantFuel k.doubles k.escapes (s.length + 1) s).map fun (t, after) => (.string k t, after)
  | none =>
    match opensQuoted c s with
    | some (tok, s) =>
      match quotedText '"' true false s with
      | some (t, after) => if t.isEmpty then none else some (tok t, after)
      | none => none
    | none =>
      if identStart c then some (.ident (c :: s.takeWhile identCont), s.dropWhile identCont)
      else if c = '$' then dollarAt s
      else if c.isDigit || (c == '.' && s.head?.any Char.isDigit) then
        match numberAt (c :: s) with
        | some (t, after) => if runsOn t after then none else some (.number t, after)
        | none => none
      else
        let t := symbolAt c s
        some (.op t, (c :: s).drop t.length)

def scannedAt (c : Char) (s : Str) : Option (Scanned × Str) :=
  if isSpace c then some (.blank c, s)
  else
    match c, s with
    | '-', '-' :: rest =>
      some (.comment ("--" ++ rest.takeWhile fun c => !isNewline c), rest.dropWhile fun c => !isNewline c)
    | '/', '*' :: rest =>
      (skipNested 1 rest).map fun after => (.comment ((c :: s).take (rest.length + 2 - after.length)), after)
    | _, _ => (tokenAt c s).map fun (t, after) => (.token t, after)

def scanSqlFuel : Nat → Str → Option (List Scanned)
  | 0, _ => none
  | _ + 1, [] => some []
  | fuel + 1, c :: s =>
    match scannedAt c s with
    | none => none
    | some (u, after) => (scanSqlFuel fuel after).map (u :: ·)

/-- What PostgreSQL reads a text as, or `none` where it refuses it. -/
def scanSql (s : Str) : Option (List Scanned) := scanSqlFuel (s.length + 1) s

def Scanned.token? : Scanned → Option SqlToken
  | .token t => some t
  | .blank _ | .comment _ => none

def tokensOf (us : List Scanned) : List SqlToken := us.filterMap Scanned.token?

/-! ## What is read of a number -/

def numberChar (c : Char) : Bool := (identCont c && c != '$') || c == '.'

variable {c : Char}

theorem isDigit_mem (hd : c.isDigit) : c ∈ "0123456789".toList := by
  have hl : 48 ≤ c.toNat := by
    simp only [Char.isDigit, Bool.and_eq_true, decide_eq_true_eq] at hd
    exact hd.1
  have hh : c.toNat ≤ 57 := by
    simp only [Char.isDigit, Bool.and_eq_true, decide_eq_true_eq] at hd
    exact hd.2
  rw [← Char.ofNat_toNat c]
  interval_cases c.toNat <;> decide

theorem numberChar_of_isDigit (hd : c.isDigit) : numberChar c := by
  simp only [numberChar, identCont, hd, Bool.or_true, Bool.true_or, Bool.true_and, Bool.or_eq_true,
    bne_iff_ne]
  left
  rintro rfl
  cases hd

variable {s after : Str} {digit : Char → Bool}

theorem digitRun_spec {t : Str} (hr : digitRun digit s = (t, after))
    (hsh : ∀ c, digit c → numberChar c) : s = t ++ after ∧ t.all numberChar := by
  fun_induction digitRun digit s generalizing t after with
  | case1 d s hi t' after' hin ih =>
    cases hr
    obtain ⟨hs, ha⟩ := ih hin
    refine ⟨by rw [hs]; rfl, ?_⟩
    rw [all_cons, all_cons, hsh d hi, ha]
    rfl
  | case2 d s hn | case4 c s hno hn | case5 =>
    cases hr
    exact ⟨rfl, rfl⟩
  | case3 c s hno hi t' after' hin ih =>
    cases hr
    obtain ⟨hs, ha⟩ := ih hin
    refine ⟨by rw [hs]; rfl, ?_⟩
    rw [all_cons, hsh c hi, ha]
    rfl

theorem digitRun_head (hd : s.head?.any Char.isDigit) :
    (digitRun Char.isDigit s).1.head? = s.head? := by
  cases s with
  | nil => cases hd
  | cons c s =>
    have hi : c.isDigit := hd
    have hn : c ≠ '_' := by
      rintro rfl
      cases hi
    rw [digitRun, if_pos hi]
    · rfl
    · rintro d s' rfl
      exact absurd rfl hn

theorem all_append_of {x y : Str} (hx : x.all numberChar) (hy : y.all numberChar) :
    (x ++ y).all numberChar := by
  rw [all_append, hx, hy]
  rfl

theorem mantissa_spec {t : Str} (hr : mantissa s = (t, after)) :
    s = t ++ after ∧ t.all numberChar := by
  rw [mantissa] at hr
  cases hru : digitRun Char.isDigit s with
  | mk whole rest =>
    obtain ⟨hs, ha⟩ := digitRun_spec hru fun _ => numberChar_of_isDigit
    rw [hru] at hr
    simp only at hr
    split at hr
    case h_1 u =>
      split at hr
      · cases hr
        exact ⟨hs, ha⟩
      · split at hr
        · cases hf : digitRun Char.isDigit u with
          | mk digits rest =>
            obtain ⟨hs', ha'⟩ := digitRun_spec hf fun _ => numberChar_of_isDigit
            rw [hf] at hr
            cases hr
            refine ⟨by rw [hs, hs']; simp, all_append_of ha ?_⟩
            rw [all_cons, ha']
            rfl
        · cases hr
          exact ⟨by rw [hs]; simp, all_append_of ha rfl⟩
    case h_2 =>
      cases hr
      exact ⟨hs, ha⟩

theorem exponent_spec {t : Str} (hr : exponent s = some (t, after)) :
    s = t ++ after ∧
      (t.all numberChar ∨
        ∃ e sign digits, t = e :: sign :: digits ∧ (e = 'e' ∨ e = 'E') ∧ (sign = '+' ∨ sign = '-') ∧
          digits.head?.any Char.isDigit ∧ digits.all numberChar) := by
  unfold exponent at hr
  split at hr
  case h_2 =>
    cases hr
    exact ⟨rfl, .inl rfl⟩
  case h_1 e s =>
    split at hr
    case isFalse =>
      cases hr
      exact ⟨rfl, .inl rfl⟩
    case isTrue hl =>
      simp only at hr
      split at hr
      case isTrue hd =>
        cases hru : digitRun Char.isDigit (s.drop ((s.take 1).filter fun c => c == '+' || c == '-').length) with
        | mk ds rest =>
          obtain ⟨hs', ha⟩ := digitRun_spec hru fun _ => numberChar_of_isDigit
          rw [hru] at hr
          cases hr
          have hle : numberChar e := by rcases hl with rfl | rfl <;> rfl
          cases s with
          | nil => cases hd
          | cons c s =>
            by_cases hs : c = '+' ∨ c = '-'
            · have hsi : ((c :: s).take 1).filter (fun c => c == '+' || c == '-') = [c] := by simp [hs]
              rw [hsi] at hd hs' hru ⊢
              refine ⟨congrArg (e :: c :: ·) hs', .inr ?_⟩
              have hf := digitRun_head hd
              rw [hru] at hf
              exact ⟨e, c, ds, rfl, hl, hs, by rw [hf]; exact hd, ha⟩
            · have hu : ((c :: s).take 1).filter (fun c => c == '+' || c == '-') = [] := by
                simpa [not_or] using hs
              rw [hu] at hs' ⊢
              refine ⟨congrArg (e :: ·) hs', .inl ?_⟩
              rw [cons_append, nil_append, all_cons, hle, ha]
              rfl
      case isFalse =>
        split at hr
        · cases hr
          exact ⟨rfl, .inl rfl⟩
        · cases hr

inductive NumberText : Str → Prop
  | plain {t : Str} (hc : t.all numberChar = true) : NumberText t
  | signed {m : Str} {e sign : Char} {digits : Str} (hc : m.all numberChar = true)
      (hl : e = 'e' ∨ e = 'E') (hi : sign = '+' ∨ sign = '-')
      (hf : digits.head?.any Char.isDigit = true) (hla : digits.all numberChar = true) :
      NumberText (m ++ e :: sign :: digits)

theorem numberChar_of_isAlpha (ha : c.isAlpha) : numberChar c := by
  simp only [numberChar, identCont, identStart, ha, Bool.true_or, Bool.true_and, Bool.or_eq_true,
    bne_iff_ne]
  left
  rintro rfl
  cases ha

theorem isAlpha_of_range (hr : ('a' ≤ c ∧ c ≤ 'f') ∨ ('A' ≤ c ∧ c ≤ 'F')) :
    c.isAlpha := by
  simp only [Char.isAlpha, Char.isUpper, Char.isLower, Bool.or_eq_true, Bool.and_eq_true,
    decide_eq_true_eq]
  simp only [Char.le_def, UInt32.le_iff_toNat_le] at hr ⊢
  have hb : ('a').val.toNat = 97 ∧ ('f').val.toNat = 102 ∧ ('A').val.toNat = 65 ∧
    ('F').val.toNat = 70 := by decide
  have hl : ('z').val.toNat = 122 ∧ ('Z').val.toNat = 90 := by decide
  omega

theorem baseDigit_numberChar {letter : Char} (hb : baseDigit letter = some digit) :
    numberChar letter ∧ ∀ c, digit c → numberChar c := by
  unfold baseDigit at hb
  split at hb
  case isTrue hn =>
    cases hb
    refine ⟨by rcases hn with rfl | rfl <;> rfl, fun c hi => ?_⟩
    simp only [Bool.or_eq_true, Bool.and_eq_true, decide_eq_true_eq] at hi
    rcases hi with (hi | hl) | hu
    · exact numberChar_of_isDigit hi
    · exact numberChar_of_isAlpha (isAlpha_of_range (.inl hl))
    · exact numberChar_of_isAlpha (isAlpha_of_range (.inr hu))
  split at hb
  case isTrue hn =>
    cases hb
    refine ⟨by rcases hn with rfl | rfl <;> rfl, fun c hi => numberChar_of_isDigit ?_⟩
    simp only [Char.isDigit, Bool.and_eq_true, decide_eq_true_eq, Char.le_def,
      UInt32.le_iff_toNat_le] at hi ⊢
    have hbo : ('0').val.toNat = 48 ∧ ('7').val.toNat = 55 ∧ ('9').val.toNat = 57 := by decide
    omega
  split at hb
  case isTrue hn =>
    cases hb
    refine ⟨by rcases hn with rfl | rfl <;> rfl, fun c hi => numberChar_of_isDigit ?_⟩
    simp only [Bool.or_eq_true, beq_iff_eq] at hi
    rcases hi with rfl | rfl <;> rfl
  case isFalse => cases hb

theorem numberAt_spec {t : Str} (hr : numberAt s = some (t, after)) :
    s = t ++ after ∧ NumberText t := by
  have hd : ∀ {t after}, numberAt.decimal s = some (t, after) → s = t ++ after ∧ NumberText t := by
    intro t after hr
    obtain ⟨⟨e, after'⟩, ht, ⟨⟩⟩ := map_eq_some_iff.mp hr
    obtain ⟨hs, ha⟩ := mantissa_spec rfl
    obtain ⟨hs', hsh⟩ := exponent_spec ht
    refine ⟨by rw [append_assoc, ← hs', ← hs], ?_⟩
    rcases hsh with ha' | ⟨e', sign, digits, rfl, hl, hi, hf, hla⟩
    · exact .plain (all_append_of ha ha')
    · exact .signed ha hl hi hf hla
  unfold numberAt at hr
  split at hr
  case h_1 letter u =>
    split at hr
    case h_1 digit hb =>
      obtain ⟨hle, hsh⟩ := baseDigit_numberChar hb
      cases hru : digitRun digit u with
      | mk digits rest =>
        obtain ⟨hs, ha⟩ := digitRun_spec hru hsh
        rw [hru] at hr
        simp only at hr
        split at hr
        · cases hr
        · cases hr
          refine ⟨congrArg ('0' :: letter :: ·) hs, .plain ?_⟩
          rw [all_cons, all_cons, hle, ha]
          rfl
    case h_2 => exact hd hr
  case h_2 => exact hd hr

/-! ## What is read of an operator -/

theorem operatorRun_spec (s : Str) :
    ∃ rest, s = operatorRun s ++ rest ∧
      ∀ y d z, operatorRun s = y ++ d :: z → opChar d ∧ commentAt (d :: z ++ rest) = false := by
  induction s with
  | nil => exact ⟨[], rfl, fun y d z hs => by cases y <;> cases hs⟩
  | cons c s ih =>
    obtain ⟨rest, hs, hc⟩ := ih
    rw [operatorRun]
    split
    case isTrue hi =>
      simp only [Bool.and_eq_true, Bool.not_eq_true'] at hi
      refine ⟨rest, congrArg (c :: ·) hs, fun y d z hw => ?_⟩
      cases y with
      | nil =>
        cases hw
        refine ⟨hi.1, ?_⟩
        rw [cons_append, ← hs]
        exact hi.2
      | cons e y => exact hc y d z (List.cons.inj hw).2
    case isFalse => exact ⟨c :: s, rfl, fun y d z hw => by cases y <;> cases hw⟩

theorem stripSigns_suffix (s : Str) : stripSigns s <:+ s ∧ (s ≠ [] → stripSigns s ≠ []) := by
  fun_induction stripSigns s with
  | case1 c d s hi ih =>
    exact ⟨ih.1.trans (suffix_cons _ _), fun _ => ih.2 (cons_ne_nil _ _)⟩
  | case2 c d s hn | case3 s _ => exact ⟨suffix_rfl, id⟩

theorem operatorAt_prefix (s : Str) :
    operatorAt s <+: operatorRun s ∧ (operatorRun s ≠ [] → operatorAt s ≠ []) := by
  have hc : operatorAt s = operatorRun s ∨ operatorAt s = (stripSigns (operatorRun s).reverse).reverse :=
    ite_eq_or_eq _ _ _
  rcases hc with hs | hst
  · rw [hs]
    exact ⟨prefix_rfl, id⟩
  · rw [hst]
    obtain ⟨hsu, hn⟩ := stripSigns_suffix (operatorRun s).reverse
    constructor
    · rw [← reverse_suffix, reverse_reverse]
      exact hsu
    · intro hr
      simpa using hn (by simpa using hr)

theorem cons_of_pair {a b d : Char} {y z : Str} (hs : [a, b] = y ++ d :: z) :
    (d = a ∧ z = [b]) ∨ (d = b ∧ z = []) := by
  cases y with
  | nil =>
    cases hs
    exact .inl ⟨rfl, rfl⟩
  | cons _ y =>
    cases y with
    | nil =>
      obtain ⟨rfl, rfl⟩ := List.cons.inj (List.cons.inj hs).2
      exact .inr ⟨rfl, rfl⟩
    | cons _ y => cases y <;> cases (List.cons.inj (List.cons.inj hs).2).2

theorem symbolAt_spec (hst : commentAt (c :: s) = false) :
    ∃ v rest, symbolAt c s = c :: v ∧ c :: s = symbolAt c s ++ rest ∧
      ∀ y d z, symbolAt c s = y ++ d :: z →
        (opChar d ∨ d = ':' ∨ d = '.' ∨ d = c) ∧ commentAt (d :: z ++ rest) = false := by
  unfold symbolAt
  split
  case h_1 u =>
    refine ⟨[':'], u, rfl, rfl, fun y d z hs => ?_⟩
    obtain ⟨rfl, rfl⟩ | ⟨rfl, rfl⟩ := cons_of_pair hs
    · exact ⟨.inr (.inl rfl), rfl⟩
    · exact ⟨.inr (.inl rfl), rfl⟩
  case h_2 u =>
    refine ⟨['='], u, rfl, rfl, fun y d z hs => ?_⟩
    obtain ⟨rfl, rfl⟩ | ⟨rfl, rfl⟩ := cons_of_pair hs
    · exact ⟨.inr (.inl rfl), rfl⟩
    · exact ⟨.inl rfl, rfl⟩
  case h_3 u =>
    refine ⟨['.'], u, rfl, rfl, fun y d z hs => ?_⟩
    obtain ⟨rfl, rfl⟩ | ⟨rfl, rfl⟩ := cons_of_pair hs
    · exact ⟨.inr (.inr (.inl rfl)), rfl⟩
    · exact ⟨.inr (.inr (.inl rfl)), rfl⟩
  case h_4 =>
    split
    case isFalse =>
      refine ⟨[], s, rfl, rfl, fun y d z hs => ?_⟩
      cases y with
      | nil =>
        cases hs
        exact ⟨.inr (.inr (.inr rfl)), hst⟩
      | cons e y => cases y <;> cases (List.cons.inj hs).2
    case isTrue hi =>
      obtain ⟨rest, hs, hc⟩ := operatorRun_spec (c :: s)
      have hr : operatorRun (c :: s) = c :: operatorRun s := by
        rw [operatorRun, if_pos (by simp [hi, hst])]
      obtain ⟨⟨q, hw⟩, hn⟩ := operatorAt_prefix (c :: s)
      obtain ⟨e, v, hf⟩ := exists_cons_of_ne_nil (hn (by simp [hr]))
      obtain rfl : e = c := by
        rw [hf, hr] at hw
        exact (List.cons.inj hw).1
      refine ⟨v, q ++ rest, hf, by rw [← append_assoc, hw]; exact hs, fun y d z hcu => ?_⟩
      rw [hcu, append_assoc] at hw
      obtain ⟨ho, hp⟩ := hc y d (z ++ q) hw.symm
      refine ⟨.inl ho, ?_⟩
      simpa using hp

/-! ## A turn of the scanner takes a character at least -/

variable {doubles escapes : Bool}

theorem quotedText_suffix {q : Char} {t : Str}
    (hr : quotedText q doubles escapes s = some (t, after)) : after <:+ s := by
  fun_induction quotedText q doubles escapes s generalizing t with
  | case1 => cases hr
  | case2 =>
    cases hr
    exact nil_suffix
  | case3 => cases hr
  | case4 d s hd ih | case6 c d s ho he ih =>
    obtain ⟨⟨t', after'⟩, hre, ⟨⟩⟩ := map_eq_some_iff.mp hr
    exact ((ih hre).trans (suffix_cons _ _)).trans (suffix_cons _ _)
  | case5 =>
    cases hr
    exact suffix_cons _ _
  | case7 c d s ho hp ih =>
    obtain ⟨⟨t', after'⟩, hre, ⟨⟩⟩ := map_eq_some_iff.mp hr
    exact (ih hre).trans (suffix_cons _ _)

variable {s' : Str}

theorem quoteContinue_suffix {comment newline : Bool}
    (hc : quoteContinue comment newline s = some s') : s' <:+ s := by
  fun_induction quoteContinue comment newline s with
  | case1 | case6 | case8 => cases hc
  | case2 newline c s he ih | case3 newline c s hg ih => exact (ih hc).trans (suffix_cons _ _)
  | case4 newline s ih => exact ((ih hc).trans (suffix_cons _ _)).trans (suffix_cons _ _)
  | case5 =>
    cases hc
    exact suffix_cons _ _
  | case7 newline c s hn hno hb ih => exact (ih hc).trans (suffix_cons _ _)

variable {fuel : Nat}

theorem constantFuel_suffix {t : Str}
    (hr : constantFuel doubles escapes fuel s = some (t, after)) : after <:+ s := by
  induction fuel generalizing s t with
  | zero => cases hr
  | succ fuel ih =>
    rw [constantFuel] at hr
    cases hc : quotedText '\'' doubles escapes s with
    | none => simp [hc] at hr
    | some p =>
      obtain ⟨t', after'⟩ := p
      simp only [hc] at hr
      have hf := quotedText_suffix hc
      cases hco : quoteContinue false false after' with
      | none =>
        simp only [hco] at hr
        cases hr
        exact hf
      | some s' =>
        simp only [hco] at hr
        obtain ⟨⟨t'', after''⟩, hre, ⟨⟩⟩ := map_eq_some_iff.mp hr
        exact ((ih hre).trans (quoteContinue_suffix hco)).trans hf

theorem opensString_suffix {k : StringKind} (ho : opensString c s = some (k, s')) : s' <:+ s := by
  unfold opensString at ho
  split at ho <;> cases ho
  · exact suffix_rfl
  all_goals first | exact suffix_cons _ _ | exact (suffix_cons _ _).trans (suffix_cons _ _)

theorem opensQuoted_spec {tok : Str → SqlToken} (ho : opensQuoted c s = some (tok, s')) :
    (tok = .quoted ∨ tok = .unicodeQuoted) ∧ s' <:+ s := by
  unfold opensQuoted at ho
  split at ho <;> cases ho
  · exact ⟨.inl rfl, suffix_rfl⟩
  all_goals exact ⟨.inr rfl, (suffix_cons _ _).trans (suffix_cons _ _)⟩

variable {t : SqlToken}

theorem dollarAt_token (hr : dollarAt s = some (t, after)) :
    (∃ tag body, t = .dollar tag body) ∨ (∃ digits, t = .param digits) ∨ t = .op ['$'] := by
  unfold dollarAt at hr
  split at hr
  case h_1 tag ho =>
    obtain ⟨⟨body, closed⟩, -, hw⟩ := map_eq_some_iff.mp hr
    exact .inl ⟨tag, body, (Prod.mk.inj hw).1.symm⟩
  case h_2 =>
    simp only at hr
    split at hr
    · exact .inr (.inr (Prod.mk.inj (Option.some.inj hr)).1.symm)
    · split at hr
      · cases hr
      · exact .inr (.inl ⟨_, (Prod.mk.inj (Option.some.inj hr)).1.symm⟩)

theorem dollarAt_suffix (hr : dollarAt s = some (t, after)) : after <:+ s := by
  unfold dollarAt at hr
  split at hr
  case h_1 tag ho =>
    obtain ⟨⟨body, closed⟩, hf, ⟨⟩⟩ := map_eq_some_iff.mp hr
    have hi : closed <:+ s.drop (tag.length - 1) := ⟨body, (findSub_eq_some hf).1.symm⟩
    exact ((drop_suffix _ _).trans hi).trans (drop_suffix _ _)
  case h_2 =>
    simp only at hr
    split at hr
    · cases hr
      exact suffix_rfl
    · split at hr
      · cases hr
      · cases hr
        exact dropWhile_suffix _

theorem mantissa_ne_nil
    (hs : c.isDigit ∨ (c = '.' ∧ s.head?.any Char.isDigit)) : (mantissa (c :: s)).1 ≠ [] := by
  rcases hs with hd | ⟨rfl, hd⟩
  · have hf := digitRun_head (s := c :: s) hd
    rw [mantissa]
    cases hr : digitRun Char.isDigit (c :: s) with
    | mk whole rest =>
      rw [hr] at hf
      obtain ⟨w, ws, rfl⟩ := exists_cons_of_ne_nil (l := whole) (by rintro rfl; cases hf)
      simp only
      repeat' split
      all_goals simp
  · have hr : digitRun Char.isDigit ('.' :: s) = ([], '.' :: s) := by
      cases s <;> rfl
    have hdo : s.head? ≠ some '.' := by
      intro hdot
      rw [hdot] at hd
      cases hd
    rw [mantissa, hr]
    simp [hdo, hd]

theorem numberAt_ne_nil {t : Str}
    (hs : c.isDigit ∨ (c = '.' ∧ s.head?.any Char.isDigit))
    (hr : numberAt (c :: s) = some (t, after)) : t ≠ [] := by
  have hd : numberAt.decimal (c :: s) = some (t, after) → t ≠ [] := by
    intro hr
    have hn := mantissa_ne_nil hs
    rw [numberAt.decimal] at hr
    cases hru : mantissa (c :: s) with
    | mk m rest =>
      obtain ⟨⟨e, after'⟩, -, ⟨⟩⟩ := map_eq_some_iff.mp hr
      exact append_ne_nil_of_left_ne_nil hn e
  unfold numberAt at hr
  split at hr
  case h_1 =>
    split at hr
    case h_1 =>
      simp only at hr
      split at hr
      · cases hr
      · cases hr
        exact cons_ne_nil _ _
    case h_2 => exact hd hr
  case h_2 => exact hd hr

theorem tokenAt_cases (hr : tokenAt c s = some (t, after)) :
    (∃ k s' body, opensString c s = some (k, s') ∧ t = .string k body ∧
        constantFuel k.doubles k.escapes (s'.length + 1) s' = some (body, after)) ∨
      (∃ tok s' body, opensQuoted c s = some (tok, s') ∧ t = tok body ∧
        quotedText '"' true false s' = some (body, after)) ∨
      (opensString c s = none ∧ opensQuoted c s = none ∧
        ((identStart c ∧ t = .ident (c :: s.takeWhile identCont) ∧ after = s.dropWhile identCont) ∨
          (c = '$' ∧ dollarAt s = some (t, after)) ∨
          (∃ number, (c.isDigit ∨ (c = '.' ∧ s.head?.any Char.isDigit)) ∧
            numberAt (c :: s) = some (number, after) ∧ runsOn number after = false ∧ t = .number number) ∨
          (identStart c = false ∧ c ≠ '$' ∧ t = .op (symbolAt c s) ∧
            after = (c :: s).drop (symbolAt c s).length))) := by
  unfold tokenAt at hr
  split at hr
  case h_1 k s' ho =>
    obtain ⟨⟨t', after'⟩, hre, ⟨⟩⟩ := map_eq_some_iff.mp hr
    exact .inl ⟨k, s', t', ho, rfl, hre⟩
  case h_2 hn =>
    right
    split at hr
    case h_1 tok s' ho =>
      split at hr
      case h_1 t' after' hre =>
        split at hr
        · cases hr
        · cases hr
          exact .inl ⟨tok, s', t', ho, rfl, hre⟩
      case h_2 => cases hr
    case h_2 hno =>
      refine .inr ⟨hn, hno, ?_⟩
      split at hr
      case isTrue hs =>
        cases hr
        exact .inl ⟨hs, rfl, rfl⟩
      case isFalse hs =>
        right
        split at hr
        case isTrue hd => exact .inl ⟨hd, hr⟩
        case isFalse hd =>
          right
          split at hr
          case isTrue hst =>
            simp only [Bool.or_eq_true, Bool.and_eq_true, beq_iff_eq] at hst
            split at hr
            case h_1 t' after' hnu =>
              split at hr
              · cases hr
              · next hsto =>
                cases hr
                exact .inl ⟨t', hst, hnu, by simpa using hsto, rfl⟩
            case h_2 => cases hr
          case isFalse =>
            cases hr
            exact .inr ⟨by simpa using hs, hd, rfl, rfl⟩

theorem tokenAt_suffix (hc : commentAt (c :: s) = false)
    (hr : tokenAt c s = some (t, after)) : after <:+ s := by
  rcases tokenAt_cases hr with ⟨k, s', body, ho, -, hco⟩ | ⟨tok, s', body, ho, -, hq⟩ |
    ⟨-, -, ⟨-, -, rfl⟩ | ⟨-, hd⟩ | ⟨number, hs, hr, -, -⟩ | ⟨-, -, -, rfl⟩⟩
  · exact (constantFuel_suffix hco).trans (opensString_suffix ho)
  · exact (quotedText_suffix hq).trans (opensQuoted_spec ho).2
  · exact dropWhile_suffix _
  · exact dollarAt_suffix hd
  · obtain ⟨e, u, rfl⟩ := exists_cons_of_ne_nil (numberAt_ne_nil hs hr)
    exact ⟨u, (List.cons.inj (numberAt_spec hr).1).2.symm⟩
  · obtain ⟨v, rest, hsy, -⟩ := symbolAt_spec hc
    rw [hsy, length_cons, drop_succ_cons]
    exact drop_suffix _ _

theorem commentAt_eq_false (hd : ∀ r, c = '-' → s = '-' :: r → False)
    (hs : ∀ r, c = '/' → s = '*' :: r → False) : commentAt (c :: s) = false := by
  unfold commentAt
  split
  case h_1 hw =>
    cases hw
    exact (hd _ rfl rfl).elim
  case h_2 hw =>
    cases hw
    exact (hs _ rfl rfl).elim
  case h_3 => rfl

variable {u : Scanned}

theorem scannedAt_cases (hr : scannedAt c s = some (u, after)) :
    (isSpace c ∧ u = .blank c ∧ after = s) ∨
      (∃ rest text, c = '-' ∧ s = '-' :: rest ∧ u = .comment text ∧ after = rest.dropWhile fun c => !isNewline c) ∨
      (∃ rest text, c = '/' ∧ s = '*' :: rest ∧ u = .comment text ∧ skipNested 1 rest = some after) ∨
      (isSpace c = false ∧ commentAt (c :: s) = false ∧ ∃ t, u = .token t ∧ tokenAt c s = some (t, after)) := by
  unfold scannedAt at hr
  split at hr
  case isTrue hb =>
    cases hr
    exact .inl ⟨hb, rfl, rfl⟩
  case isFalse hb =>
    right
    split at hr
    case h_1 rest =>
      cases hr
      exact .inl ⟨rest, _, rfl, rfl, rfl, rfl⟩
    case h_2 rest =>
      obtain ⟨after', hs, ⟨⟩⟩ := map_eq_some_iff.mp hr
      exact .inr (.inl ⟨rest, _, rfl, rfl, rfl, hs⟩)
    case h_3 hd hsl =>
      obtain ⟨⟨t, after'⟩, ht, ⟨⟩⟩ := map_eq_some_iff.mp hr
      exact .inr (.inr ⟨by simpa using hb, commentAt_eq_false hd hsl, t, rfl, ht⟩)

theorem scannedAt_suffix (hr : scannedAt c s = some (u, after)) :
    after <:+ s := by
  rcases scannedAt_cases hr with ⟨-, -, rfl⟩ | ⟨rest, _, -, rfl, -, rfl⟩ | ⟨rest, _, -, rfl, -, hs⟩ |
    ⟨-, hc, t, -, ht⟩
  · exact suffix_rfl
  · exact (dropWhile_suffix _).trans (suffix_cons _ _)
  · exact (skipNested_suffix hs).trans (suffix_cons _ _)
  · exact tokenAt_suffix hc ht

theorem scanSqlFuel_eq {fuel' : Nat} (he : s.length < fuel) (he' : s.length < fuel') :
    scanSqlFuel fuel s = scanSqlFuel fuel' s := by
  induction fuel generalizing fuel' s with
  | zero => cases he
  | succ fuel ih =>
    cases fuel' with
    | zero => cases he'
    | succ fuel' =>
      cases s with
      | nil => rfl
      | cons c s =>
        rw [scanSqlFuel, scanSqlFuel]
        cases hr : scannedAt c s with
        | none => rfl
        | some p =>
          obtain ⟨u, after⟩ := p
          have hs := (scannedAt_suffix hr).length_le
          rw [length_cons] at he he'
          simp only [ih (show after.length < fuel by omega) (show after.length < fuel' by omega)]

variable {us : List Scanned}

theorem scanSql_cons :
    scanSql (c :: s) = some us ↔
      ∃ u after rest, scannedAt c s = some (u, after) ∧ scanSql after = some rest ∧ us = u :: rest := by
  rw [scanSql, length_cons, scanSqlFuel]
  cases hr : scannedAt c s with
  | none => simp
  | some p =>
    obtain ⟨u, after⟩ := p
    have hsh := (scannedAt_suffix hr).length_le
    have hre : scanSqlFuel (s.length + 1) after = scanSql after :=
      scanSqlFuel_eq (by omega) (Nat.lt_succ_self _)
    simp only [hre, map_eq_some_iff]
    constructor
    · rintro ⟨us', hs, rfl⟩
      exact ⟨u, after, us', rfl, hs, rfl⟩
    · rintro ⟨_, _, us', hsa, hs, rfl⟩
      cases hsa
      exact ⟨us', hs, rfl⟩

/-- The scanner reads `us` and has then reached `rest`, whether or not it refuses what
stands there. -/
inductive Scans : Str → List Scanned → Str → Prop
  | nil (s : Str) : Scans s [] s
  | cons {c : Char} {s after rest : Str} {u : Scanned} {us : List Scanned}
      (hr : scannedAt c s = some (u, after)) (hb : Scans after us rest) : Scans (c :: s) (u :: us) rest

theorem scanSql_iff : scanSql s = some us ↔ Scans s us [] := by
  induction us generalizing s with
  | nil =>
    cases s with
    | nil => exact ⟨fun _ => .nil _, fun _ => rfl⟩
    | cons c s =>
      rw [scanSql_cons]
      exact ⟨fun ⟨_, _, _, _, _, hw⟩ => (by cases hw), fun hs => (by cases hs)⟩
  | cons u us ih =>
    cases s with
    | nil => exact ⟨fun hsc => (by cases hsc), fun hs => (by cases hs)⟩
    | cons c s =>
      rw [scanSql_cons]
      constructor
      · rintro ⟨_, after, _, hr, hb, hw⟩
        cases hw
        exact .cons hr (ih.mp hb)
      · rintro (_ | ⟨hr, hb⟩)
        exact ⟨_, _, _, hr, ih.mpr hb, rfl⟩

end HeliosProxy.Postgres
