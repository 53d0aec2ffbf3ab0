import Mathlib

/-!
# Characters of SQL text

SQL text is a list of characters.  The source scans the bytes of a UTF-8
string; the bytes of a character beyond ASCII are all `0x80` or above and no
scanner treats two such bytes differently, so that a scan by characters finds
the same places.

Which characters beyond ASCII are letters, and how they change case, is
Unicode's business.  These functions are parameters (`UnicodeTables`) of which
only the ASCII part is fixed.

The tests of the server's classifiers look for a keyword without lexing the text: at its
front, and anywhere between characters that are no part of an ASCII identifier.

PostgreSQL reads the same tokens however they are set apart: by spaces, tabs and
line ends, by comments that run to the end of the line, and by block comments, which
nest.
-/

namespace HeliosProxy.Text

open Char

abbrev Str := List Char

instance : LawfulBEq Str := inferInstance

instance : Coe String Str := ⟨String.toList⟩

def isAscii (c : Char) : Bool := c.toNat < 128

def byteLen (s : Str) : Nat := (s.map utf8Size).sum

/-- Rust's `char::is_alphabetic`, `char::to_uppercase` and
`str::to_lowercase`. -/
structure UnicodeTables where
  isAlphabetic : Char → Bool
  toUppercase : Char → Str
  toLowercase : Str → Str
  isAlphabetic_ascii : ∀ c, isAscii c = true → isAlphabetic c = c.isAlpha
  toUppercase_ascii : ∀ c, isAscii c = true → toUppercase c = [c.toUpper]
  toLowercase_ascii : ∀ s, s.all isAscii = true → toLowercase s = s.map toLower

def UnicodeTables.ascii : UnicodeTables where
  isAlphabetic := isAlpha
  toUppercase c := [c.toUpper]
  toLowercase s := s.map toLower
  isAlphabetic_ascii _ _ := rfl
  toUppercase_ascii _ _ := rfl
  toLowercase_ascii _ _ := rfl

/-- `char::is_whitespace`: Unicode's `White_Space`. -/
def isWhitespace (c : Char) : Bool :=
  let n := c.toNat
  (9 ≤ n && n ≤ 13) || n == 0x20 || n == 0x85 || n == 0xA0 || n == 0x1680 ||
    (0x2000 ≤ n && n ≤ 0x200A) || n == 0x2028 || n == 0x2029 || n == 0x202F || n == 0x205F ||
    n == 0x3000

def trimStart (s : Str) : Str := s.dropWhile isWhitespace

def trimEnd (s : Str) : Str := (s.reverse.dropWhile isWhitespace).reverse

def trim (s : Str) : Str := trimEnd (trimStart s)

/-- `eq_ignore_ascii_case`. -/
def eqIgnoreCase (a b : Str) : Bool := a.map toLower == b.map toLower

def startsWithCi (s pre : Str) : Bool := eqIgnoreCase (s.take pre.length) pre

/-- The text up to the first occurrence of `needle`, and from it on. -/
def findSub (needle : Str) : Str → Option (Str × Str)
  | [] => if needle.isEmpty then some ([], []) else none
  | c :: s =>
    if needle.isPrefixOf (c :: s) then some ([], c :: s)
    else (findSub needle s).map fun (before, rest) => (c :: before, rest)

def containsSub (needle s : Str) : Bool := (findSub needle s).isSome

/-- The words of `s` between characters that `sep` holds of, the empty ones
included. -/
def splitOn (sep : Char → Bool) : Str → List Str
  | [] => [[]]
  | c :: s =>
    if sep c then [] :: splitOn sep s
    else
      match splitOn sep s with
      | [] => [[c]]
      | w :: ws => (c :: w) :: ws

/-- A character that starts an unquoted identifier (`replay_sql::ident_start`). -/
def identStart (c : Char) : Bool := c.isAlpha || c == '_' || !isAscii c

/-- A character that continues one (`replay_sql::ident_cont`). -/
def identCont (c : Char) : Bool := identStart c || c.isDigit || c == '$'

/-- `sql_text::is_space`: PostgreSQL's whitespace. -/
def isSpace (c : Char) : Bool :=
  c == ' ' || c == '\t' || c == '\n' || c == '\r' || c == '\x0b' || c == '\x0c'

/-- Where a run of characters that `p` holds of ends. -/
theorem takeWhile_append_of_all {p : Char → Bool} {w s : Str} (hw : w.all p)
    (hs : s.head?.all (!p ·)) :
    (w ++ s).takeWhile p = w ∧ (w ++ s).dropWhile p = s := by
  have hall : ∀ c ∈ w, p c := List.all_eq_true.mp hw
  rw [List.takeWhile_append_of_pos hall, List.dropWhile_append_of_pos hall]
  cases s with
  | nil => simp
  | cons c s =>
    have hc : p c = false := by simpa using hs
    simp [hc]

/-- A string of the wire protocol: text, or bytes that are no UTF-8. -/
inductive WireStr
  | text (s : Str)
  | raw (bytes : List UInt8)
deriving DecidableEq

/-- `std::str::from_utf8`. -/
def WireStr.utf8? : WireStr → Option Str
  | .text s => some s
  | .raw _ => none

theorem utf8?_isSome {w : WireStr} (h : w.utf8?.isSome) : ∃ s, w = .text s := by
  cases w with
  | text s => exact ⟨s, rfl⟩
  | raw bytes => cases h

def unnamed : WireStr := .text []

/-! ## Words, by the bytes -/

/-- `is_ident` of the classifiers: a letter, a digit or `_`. -/
def asciiIdent (c : Char) : Bool := c.isAlphanum || c == '_'

theorem asciiIdent_of_identCont {c : Char} (ha : (!identCont c)) : (!asciiIdent c) := by
  simp only [identCont, identStart, Bool.not_eq_eq_eq_not, Bool.not_true, Bool.or_eq_false_iff] at ha
  rw [asciiIdent, Char.isAlphanum, ha.1.1.1.1, ha.1.2, ha.1.1.1.2]
  rfl

/-- `starts_with_word_ci`: the keyword with an identifier boundary after it. -/
def startsWithWordCi (s word : Str) : Bool :=
  startsWithCi s word && !(s.drop word.length).head?.any asciiIdent

/-- The loop of `contains_word_ci`, behind the character `before`. -/
def containsWordCiFrom (word : Str) : Option Char → Str → Bool
  | _, [] => false
  | before, c :: s =>
    (!before.any asciiIdent && startsWithWordCi (c :: s) word) || containsWordCiFrom word (some c) s

def containsWordCi (haystack word : Str) : Bool :=
  !word.isEmpty && containsWordCiFrom word none haystack

/-- What the classifiers read of a text: trimmed, without one trailing semicolon. -/
def statementCore (sql : Str) : Str :=
  let t := trim sql
  trimEnd (if t.getLast? == some ';' then t.dropLast else t)

/-! ## Layouts of a statement -/

/-- Whether a text closes the block comments open at `depth` exactly at its end. -/
def closesAt : Nat → Str → Bool
  | 0, s => s.isEmpty
  | depth + 1, '/' :: '*' :: s => closesAt (depth + 2) s
  | depth + 1, '*' :: '/' :: s => closesAt depth s
  | depth + 1, _ :: s => closesAt (depth + 1) s
  | _ + 1, [] => false

def isLineEnd (c : Char) : Bool := c == '\n' || c == '\r'

inductive Gap : Str → Prop
  | nil : Gap []
  | blank {c : Char} {s : Str} (hc : isSpace c = true) (hs : Gap s) : Gap (c :: s)
  | line {body s : Str} {c : Char} (hbody : body.all (!isLineEnd ·) = true)
      (hc : isLineEnd c = true) (hs : Gap s) : Gap ("--".toList ++ body ++ c :: s)
  | block {body s : Str} (hbody : closesAt 1 body = true) (hs : Gap s) :
      Gap ("/*".toList ++ body ++ s)

inductive LaidBehind : List Str → Str → Prop
  | nil : LaidBehind [] []
  | cons {g w s : Str} {ws : List Str} (hg : Gap g) (hne : g ≠ []) (hs : LaidBehind ws s) :
      LaidBehind (w :: ws) (g ++ (w ++ s))

/-- A layout of a statement: its words with gaps between them, and maybe one in front. -/
inductive LaidOut : List Str → Str → Prop
  | mk {g w s : Str} {ws : List Str} (hg : Gap g) (hs : LaidBehind ws s) :
      LaidOut (w :: ws) (g ++ (w ++ s))

end HeliosProxy.Text
