import HeliosProxy.Text.Chars

/-!
# The quote-aware lexer of the result caches

`sql_text::Pieces` reads SQL text the way PostgreSQL does with
`standard_conforming_strings = on`, and stops with a `rest` where PostgreSQL
and the HeliosDB backends, or two settings of the server, may read different
statements.  A piece is read off the front of the remaining text.
-/

namespace HeliosProxy.Text

inductive Piece
  | space (t : Str)
  | comment (t : Str)
  | text (t : Str)
  | ident (t : Str)
  | str (t : Str)
  /-- A dollar-quoted literal and its delimiter. -/
  | dollar (t tag : Str)
  | number (t : Str)
  | rest (t : Str)
deriving DecidableEq

def Piece.source : Piece → Str
  | .space t | .comment t | .text t | .ident t | .str t | .dollar t _ | .number t | .rest t => t

/-- `lite_reads_into`: a comment HeliosDB-Lite's splitter, which knows no
comments, may end a statement in or leave a quote open in. -/
def liteReadsInto (body : Str) : Bool :=
  body.any (fun c => c == ';' || c == '$') ||
    (body.foldl (fun (quoted : Option Char) c =>
      if c == '\'' || c == '"' then
        match quoted with
        | none => some c
        | some q => if q == c then none else some q
      else quoted) none).isSome

/-- Whether a `;` other than the final one stands in `s`, the text from the
start of a comment on. -/
def laterSemicolon (s : Str) : Bool :=
  let t := trimEnd s
  let t := if t.getLast? == some ';' then trimEnd t.dropLast else t
  t.contains ';'

/-- `nano_reads_into`: a dollar-quoted body HeliosDB-Nano's comment stripper
reads as SQL. -/
def nanoReadsInto (body : Str) : Bool :=
  body.any (fun c => c == '\'' || c == '"') || containsSub "--" body ||
    containsSub "/*" body

/-- The comment `body` in front of `after`, or the rest of the text. -/
def commentPiece (body after : Str) : Piece × Str :=
  if liteReadsInto body && laterSemicolon (body ++ after) then (.rest (body ++ after), [])
  else (.comment body, after)

/-- The block comment in front of the text, up to its first closing mark,
unless another one opens before that. -/
def blockComment (s : Str) : Option (Str × Str) :=
  match findSub "*/" (s.drop 2) with
  | none => none
  | some (body, closed) =>
    if containsSub "/*" (body ++ ['*']) then none
    else some (s.take 2 ++ body ++ closed.take 2, closed.drop 2)

/-- What a string literal holds after its opening quote, the closing one
included. -/
def stringBody : Str → Option (Str × Str)
  | [] => none
  | '\\' :: '\'' :: _ => none
  | '\'' :: '\'' :: s => (stringBody s).map fun (t, after) => ('\'' :: '\'' :: t, after)
  | '\'' :: s => some (['\''], s)
  | c :: s => (stringBody s).map fun (t, after) => (c :: t, after)

def quotedIdentBody : Str → Option (Str × Str)
  | [] => none
  | '"' :: '"' :: s => (quotedIdentBody s).map fun (t, after) => ('"' :: '"' :: t, after)
  | '"' :: s => some (['"'], s)
  | c :: s => (quotedIdentBody s).map fun (t, after) => (c :: t, after)

def dollarTag (s : Str) : Option Str :=
  let name := match s.drop 1 with
    | c :: t => if identStart c then c :: t.takeWhile (fun c => identStart c || c.isDigit) else []
    | [] => []
  if (s.drop (1 + name.length)).head? == some '$' then some ('$' :: name ++ ['$']) else none

def opensDollarQuoteElsewhere (s : Str) : Bool :=
  ((s.drop 1).dropWhile fun c => c != '$' && identCont c).head? == some '$'

/-- The word `w` in front of `after`, or the rest of the text when it holds
two `$`. -/
def wordPiece (w after : Str) : Piece × Str :=
  if 2 ≤ w.count '$' then (.rest (w ++ after), []) else (.text w, after)

def decinteger : Str → Str × Str
  | c :: '_' :: d :: s =>
    if c.isDigit then
      if d.isDigit then
        let (t, after) := decinteger (d :: s)
        (c :: '_' :: t, after)
      else ([c], '_' :: d :: s)
    else ([], c :: '_' :: d :: s)
  | c :: s =>
    if c.isDigit then
      let (t, after) := decinteger s
      (c :: t, after)
    else ([], c :: s)
  | [] => ([], [])

def numberText (s : Str) : Str × Str :=
  let (whole, after) := decinteger s
  let (whole, after) := match after with
    | '.' :: t => if t.head? == some '.' then (whole, after)
        else ((whole ++ '.' :: (decinteger t).1), (decinteger t).2)
    | _ => (whole, after)
  match after with
  | e :: t =>
    if e == 'e' || e == 'E' then
      let sign := t.takeWhile fun c => c == '+' || c == '-'
      let sign := sign.take 1
      let (digits, later) := decinteger (t.drop sign.length)
      if digits.isEmpty then (whole, after) else (whole ++ e :: sign ++ digits, later)
    else (whole, after)
  | [] => (whole, after)

def numberPiece (s : Str) : Piece × Str :=
  let (t, after) := numberText s
  if after.head?.any identCont then
    wordPiece (t ++ after.takeWhile identCont) (after.dropWhile identCont)
  else (.number t, after)

/-- The next piece of the text `c :: s`, and what follows it. -/
def nextPiece (c : Char) (s : Str) : Piece × Str :=
  if isSpace c then (.space (c :: s.takeWhile isSpace), s.dropWhile isSpace)
  else if c == '-' && s.head? == some '-' then
    let notNewline : Char → Bool := fun c => c != '\n' && c != '\r'
    let body := '-' :: '-' :: (s.drop 1).takeWhile notNewline
    let after := (s.drop 1).dropWhile notNewline
    if after.head? == some '\r' && (after.drop 1).head? != some '\n' then (.rest (c :: s), [])
    else commentPiece body after
  else if c == '/' && s.head? == some '*' then
    match blockComment (c :: s) with
    | some (body, after) => commentPiece body after
    | none => (.rest (c :: s), [])
  else if c == '\'' then
    match stringBody s with
    | some (t, after) => (.str (c :: t), after)
    | none => (.rest (c :: s), [])
  else if c == '"' then
    match quotedIdentBody s with
    | some (t, after) => (.ident (c :: t), after)
    | none => (.rest (c :: s), [])
  else if c == '$' then
    match dollarTag (c :: s) with
    | some tag =>
      if tag.all isAscii then
        match findSub tag ((c :: s).drop tag.length) with
        | some (body, closed) =>
          if nanoReadsInto body then (.rest (c :: s), [])
          else (.dollar (tag ++ body ++ tag) tag, closed.drop tag.length)
        | none => (.rest (c :: s), [])
      else (.rest (c :: s), [])
    | none =>
      if opensDollarQuoteElsewhere (c :: s) then (.rest (c :: s), [])
      else (.text (c :: s.takeWhile Char.isDigit), s.dropWhile Char.isDigit)
  else if c == '.' && s.head? == some '.' then (.text ['.', '.'], s.drop 1)
  else if c == '.' && s.head?.any Char.isDigit then numberPiece (c :: s)
  else if c.isDigit then numberPiece (c :: s)
  else if identStart c then wordPiece (c :: s.takeWhile identCont) (s.dropWhile identCont)
  else (.text [c], s)

/-- `Pieces`, with enough fuel for one piece per character. -/
def piecesFuel : Nat → Str → List Piece
  | 0, _ => []
  | _ + 1, [] => []
  | fuel + 1, c :: s => (nextPiece c s).1 :: piecesFuel fuel (nextPiece c s).2

def pieces (s : Str) : List Piece := piecesFuel s.length s

def hasCommentMarker (s : Str) : Bool := containsSub "--" s || containsSub "/*".toList s

/-- The text `sql` of the pieces `ps` with each comment replaced by one space
(`Stripped`). -/
def stripped (sql : Str) (ps : List Piece) : Str :=
  if ps.any fun | .comment _ => true | _ => false then
    ps.flatMap fun
      | .comment _ => [' ']
      | p => p.source
  else sql

def stripComments (sql : Str) : Str :=
  if hasCommentMarker sql then stripped sql (pieces sql) else sql

end HeliosProxy.Text
