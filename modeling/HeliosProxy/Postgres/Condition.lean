import HeliosProxy.Text.Chars

/-!
# Conditions of SQL statements

How PostgreSQL reads a condition made of comparisons with `AND`, `OR`, `NOT` and
parentheses: `NOT` binds closer than `AND`, and `AND` closer than `OR`.  A
comparison is true, false or unknown for a row, and the connectives are Kleene's.
-/

namespace HeliosProxy.Postgres

open Text List Option

/-! ## Lexemes -/

inductive Lexeme
  | word (w : Str)
  | number (digits : Str)
  | string (s : Str)
  | quoted (s : Str)
  | operator (o : Str)
  | lparen
  | rparen
  | dot
deriving DecidableEq

def operatorChar (c : Char) : Bool := c ∈ "<>=!".toList

/-- The body of a literal up to its closing quote, and what follows.  A quote in it
is written twice. -/
def quotedBody (quote : Char) : Str → Option (Str × Str)
  | [] => none
  | [c] => if c = quote then some ([], []) else none
  | c :: d :: s =>
    if c ≠ quote then (quotedBody quote (d :: s)).map fun (body, rest) => (c :: body, rest)
    else if d = quote then (quotedBody quote s).map fun (body, rest) => (quote :: body, rest)
    else some ([], d :: s)

/-- The lexeme that starts with `c`, none for white space, and the text behind it. -/
def nextLexeme (c : Char) (s : Str) : Option (Option Lexeme × Str) :=
  if isSpace c then some (none, s)
  else if identStart c then some (some (.word (c :: s.takeWhile identCont)), s.dropWhile identCont)
  else if c.isDigit then
    let more := fun d : Char => d.isDigit || d == '.'
    some (some (.number (c :: s.takeWhile more)), s.dropWhile more)
  else if c = '\'' then (quotedBody c s).map fun (body, rest) => (some (.string body), rest)
  else if c = '"' then (quotedBody c s).map fun (body, rest) => (some (.quoted body), rest)
  else if c = '(' then some (some .lparen, s)
  else if c = ')' then some (some .rparen, s)
  else if c = '.' then some (some .dot, s)
  else if operatorChar c then
    some (some (.operator (c :: s.takeWhile operatorChar)), s.dropWhile operatorChar)
  else none

def lexFuel : Nat → Str → Option (List Lexeme)
  | _, [] => some []
  | 0, _ :: _ => none
  | n + 1, c :: s => do
    let (l, rest) ← nextLexeme c s
    let ls ← lexFuel n rest
    return l.toList ++ ls

def lexemes (s : Str) : Option (List Lexeme) := lexFuel s.length s

variable {s rest : Str}

theorem length_quotedBody {quote : Char} {body : Str}
    (h : quotedBody quote s = some (body, rest)) : rest.length ≤ s.length := by
  fun_induction quotedBody quote s generalizing body rest with
  | case1 | case3 => cases h
  | case2 =>
    cases h
    exact Nat.zero_le _
  | case4 c d s hc ih =>
    obtain ⟨⟨body', rest'⟩, hbody, heq⟩ := map_eq_some_iff.mp h
    cases heq
    exact Nat.le_succ_of_le (ih hbody)
  | case5 d s _ ih =>
    obtain ⟨⟨body', rest'⟩, hbody, heq⟩ := map_eq_some_iff.mp h
    cases heq
    exact Nat.le_succ_of_le (Nat.le_succ_of_le (ih hbody))
  | case6 d s hd =>
    cases h
    exact Nat.le_succ _

variable {l : Option Lexeme}

theorem length_nextLexeme {c : Char}
    (h : nextLexeme c s = some (l, rest)) : rest.length ≤ s.length := by
  unfold nextLexeme at h
  repeat' split at h
  all_goals
    first
    | cases h; exact le_refl _
    | cases h; exact (dropWhile_sublist _).length_le
    | cases h
    | obtain ⟨⟨body, r⟩, hbody, heq⟩ := map_eq_some_iff.mp h
      cases heq
      exact length_quotedBody hbody

variable {n : Nat}

theorem lexFuel_eq (h : s.length ≤ n) : lexFuel n s = lexemes s := by
  have hfuel : ∀ (n m : Nat) (s : Str), s.length ≤ n → s.length ≤ m → lexFuel n s = lexFuel m s := by
    intro n
    induction n with
    | zero =>
      intro m s hn _
      obtain rfl := length_eq_zero_iff.mp (Nat.le_zero.mp hn)
      cases m <;> rfl
    | succ n ih =>
      intro m s hn hm
      cases s with
      | nil => cases m <;> rfl
      | cons c s =>
        cases m with
        | zero => cases hm
        | succ m =>
          rw [lexFuel, lexFuel]
          cases hnext : nextLexeme c s with
          | none => rfl
          | some r =>
            obtain ⟨l, rest⟩ := r
            have hlen := length_nextLexeme hnext
            simp only [length_cons] at hn hm
            simp only [bind_eq_bind, bind_some]
            rw [ih m rest (by omega) (by omega)]
  exact hfuel n s.length s h (le_refl _)

@[simp] theorem lexemes_nil : lexemes [] = some [] := rfl

theorem lexemes_cons {c : Char}
    (h : nextLexeme c s = some (l, rest)) :
    lexemes (c :: s) = (lexemes rest).map (l.toList ++ ·) := by
  rw [lexemes, length_cons, lexFuel, h]
  simp only [bind_eq_bind, bind_some]
  rw [lexFuel_eq (length_nextLexeme h)]
  cases lexemes rest <;> rfl

/-! ## Conditions -/

inductive Operand
  | column (path : List Lexeme)
  | number (digits : Str)
  | string (s : Str)
deriving DecidableEq

structure Comparison where
  lhs : Operand
  op : Str
  rhs : Operand
deriving DecidableEq

/-- A condition over atoms `A`, with its parentheses. -/
inductive Cond (A : Type)
  | atom (a : A)
  | group (c : Cond A)
  | not (c : Cond A)
  | and (a b : Cond A)
  | or (a b : Cond A)
deriving DecidableEq

/-- Kleene's connectives; `none` is unknown. -/
def kleeneNot : Option Bool → Option Bool := Option.map (!·)

def kleeneAnd : Option Bool → Option Bool → Option Bool
  | some false, _ => some false
  | _, some false => some false
  | some true, b => b
  | a, some true => a
  | none, none => none

def kleeneOr (a b : Option Bool) : Option Bool := kleeneNot (kleeneAnd (kleeneNot a) (kleeneNot b))

@[simp] theorem kleeneAnd_eq_true {a b : Option Bool} :
    kleeneAnd a b = some true ↔ a = some true ∧ b = some true := by
  rcases a with _ | _ | _ <;> rcases b with _ | _ | _ <;> decide

@[simp] theorem kleeneOr_eq_true {a b : Option Bool} :
    kleeneOr a b = some true ↔ a = some true ∨ b = some true := by
  rcases a with _ | _ | _ <;> rcases b with _ | _ | _ <;> decide

namespace Cond

variable {A : Type}

def eval (row : A → Option Bool) : Cond A → Option Bool
  | .atom a => row a
  | .group c => c.eval row
  | .not c => kleeneNot (c.eval row)
  | .and a b => kleeneAnd (a.eval row) (b.eval row)
  | .or a b => kleeneOr (a.eval row) (b.eval row)

def laterDisjuncts : Cond A → Option (Cond A)
  | .or _ b => some b
  | _ => none

/-- `f AND` in front of the condition's text: it binds to the first disjunct. -/
def restrict (f : Cond A) : Cond A → Cond A
  | .or a b => .or (.and f a) b
  | c => .and f c

variable {c f : Cond A}

theorem restrict_of_laterDisjuncts (h : c.laterDisjuncts = none) :
    f.restrict c = .and f c := by
  cases c with
  | or _ _ => cases h
  | atom _ | group _ | not _ | and _ _ => rfl

variable {row : A → Option Bool}

theorem eval_restrict_eq_true :
    (f.restrict c).eval row = some true →
      (f.eval row = some true ∧ c.eval row = some true) ∨
        ∃ b ∈ c.laterDisjuncts, b.eval row = some true := by
  cases c with
  | or a b =>
    simp only [restrict, eval, kleeneOr_eq_true, kleeneAnd_eq_true]
    rintro (⟨hf, ha⟩ | hb)
    · exact .inl ⟨hf, .inl ha⟩
    · exact .inr ⟨b, rfl, hb⟩
  | atom _ | group _ | not _ | and _ _ =>
    simp only [restrict, eval, kleeneAnd_eq_true]
    exact .inl

theorem eval_of_laterDisjunct (f : Cond A) {b : Cond A}
    (hb : c.laterDisjuncts = some b) (htrue : b.eval row = some true) :
    c.eval row = some true ∧ (f.restrict c).eval row = some true := by
  cases c with
  | or a b' =>
    cases hb
    simp only [eval, restrict, kleeneOr_eq_true]
    exact ⟨.inr htrue, .inr htrue⟩
  | atom _ | group _ | not _ | and _ _ => cases hb

end Cond

/-! ## Reading a condition -/

def isKeyword (k : String) (w : Str) : Bool := eqIgnoreCase w k.toList

def connective (w : Str) : Bool := isKeyword "AND" w || isKeyword "OR" w || isKeyword "NOT" w

def pathTail : List Lexeme → List Lexeme × List Lexeme
  | .dot :: .word w :: ls => ((.word w :: (pathTail ls).1), (pathTail ls).2)
  | .dot :: .quoted w :: ls => ((.quoted w :: (pathTail ls).1), (pathTail ls).2)
  | ls => ([], ls)

def readOperand : List Lexeme → Option (Operand × List Lexeme)
  | .word w :: ls =>
    if connective w then none else some (.column (.word w :: (pathTail ls).1), (pathTail ls).2)
  | .quoted w :: ls => some (.column (.quoted w :: (pathTail ls).1), (pathTail ls).2)
  | .number d :: ls => some (.number d, ls)
  | .string s :: ls => some (.string s, ls)
  | _ => none

def comparisonOperators : List Str :=
  ["=", "<>", "!=", "<", ">", "<=", ">="].map String.toList

def readComparison (ls : List Lexeme) : Option (Comparison × List Lexeme) := do
  let (lhs, ls) ← readOperand ls
  match ls with
  | .operator o :: ls =>
    if o ∈ comparisonOperators then
      let (rhs, ls) ← readOperand ls
      return (⟨lhs, o, rhs⟩, ls)
    else none
  | _ => none

abbrev Reader := List Lexeme → Option (Cond Comparison × List Lexeme)

/-- One `first`, and behind the keyword `kw` a `next` that is joined to it. -/
def readChain (kw : String) (join : Cond Comparison → Cond Comparison → Cond Comparison)
    (first next : Reader) : Reader := fun ls => do
  let (a, ls) ← first ls
  match ls with
  | .word w :: rest =>
    if isKeyword kw w then (next rest).map fun (b, ls) => (join a b, ls) else some (a, ls)
  | ls => some (a, ls)

/-- A parenthesis around what `whole` reads, a negation of what `again` reads, or
a comparison. -/
def readFactor (whole again : Reader) : Reader
  | .lparen :: ls =>
    match whole ls with
    | some (c, .rparen :: rest) => some (.group c, rest)
    | _ => none
  | .word w :: ls =>
    if isKeyword "NOT" w then (again ls).map fun (c, ls) => (.not c, ls)
    else (readComparison (.word w :: ls)).map fun (a, ls) => (.atom a, ls)
  | ls => (readComparison ls).map fun (a, ls) => (.atom a, ls)

mutual

def readOr : Nat → Reader
  | 0 => fun _ => none
  | n + 1 => readChain "OR" .or (readAnd n) (readOr n)

def readAnd : Nat → Reader
  | 0 => fun _ => none
  | n + 1 => readChain "AND" .and (readNot n) (readAnd n)

def readNot : Nat → Reader
  | 0 => fun _ => none
  | n + 1 => readFactor (readOr n) (readNot n)

end

def readCondition (s : Str) : Option (Cond Comparison) :=
  match lexemes s with
  | none => none
  | some ls =>
    match readOr (3 * ls.length + 3) ls with
    | some (c, []) => some c
    | _ => none

/-! ## Fuel -/

section Readers

variable {ls rest : List Lexeme} {c : Cond Comparison}
  {join : Cond Comparison → Cond Comparison → Cond Comparison} {kw : String}

theorem readChain_eq_some
    {first next : Reader} :
    readChain kw join first next ls = some (c, rest) ↔
      ∃ a behind, first ls = some (a, behind) ∧
        ((∃ w ls' b, behind = .word w :: ls' ∧ isKeyword kw w ∧
            next ls' = some (b, rest) ∧ c = join a b) ∨
          ((∀ w ls', behind = .word w :: ls' → isKeyword kw w = false) ∧ c = a ∧ rest = behind)) := by
  unfold readChain
  cases hfirst : first ls with
  | none => simp
  | some r =>
    obtain ⟨a, behind⟩ := r
    simp only [bind_eq_bind, bind_some, Option.some.injEq, Prod.mk.injEq]
    constructor
    · intro h
      refine ⟨a, behind, ⟨rfl, rfl⟩, ?_⟩
      split at h
      next w ls' =>
        split at h
        next hkw =>
          obtain ⟨⟨b, ls''⟩, hnext, heq⟩ := map_eq_some_iff.mp h
          cases heq
          exact .inl ⟨w, ls', b, rfl, hkw, hnext, rfl⟩
        next hkw =>
          cases h
          refine .inr ⟨?_, rfl, rfl⟩
          rintro w' ls'' heq
          cases heq
          exact eq_false_of_ne_true hkw
      next hword =>
        cases h
        exact .inr ⟨fun w ls' heq => absurd heq (hword w ls'), rfl, rfl⟩
    · rintro ⟨a', behind', ⟨rfl, rfl⟩, ⟨w, ls', b, rfl, hkw, hnext, rfl⟩ | ⟨hword, rfl, rfl⟩⟩
      · simp [hkw, hnext]
      · split
        next w ls' => rw [if_neg (by simp [hword w ls' rfl])]
        next => rfl

variable {whole again : Reader}

theorem readFactor_eq_some (h : readFactor whole again ls = some (c, rest)) :
    (∃ ls' c', ls = .lparen :: ls' ∧ whole ls' = some (c', .rparen :: rest) ∧ c = .group c') ∨
      (∃ w ls' c', ls = .word w :: ls' ∧ isKeyword "NOT" w ∧ again ls' = some (c', rest) ∧
        c = .not c') ∨
      ((∀ w ls', ls = .word w :: ls' → isKeyword "NOT" w = false) ∧ (∀ ls', ls ≠ .lparen :: ls') ∧
        ∃ a, readComparison ls = some (a, rest) ∧ c = .atom a) := by
  unfold readFactor at h
  split at h
  next ls =>
    split at h
    next c' rest' hwhole =>
      cases h
      exact .inl ⟨ls, c', rfl, hwhole, rfl⟩
    next => cases h
  next w ls =>
    split at h
    next hnot =>
      obtain ⟨⟨c', ls'⟩, hagain, heq⟩ := map_eq_some_iff.mp h
      cases heq
      exact .inr (.inl ⟨w, ls, c', rfl, hnot, hagain, rfl⟩)
    next hnot =>
      obtain ⟨⟨a, ls'⟩, hread, heq⟩ := map_eq_some_iff.mp h
      cases heq
      refine .inr (.inr ⟨?_, fun _ h => (by cases h), a, hread, rfl⟩)
      rintro w' ls'' heq
      cases heq
      exact eq_false_of_ne_true hnot
  next hparen hword =>
    obtain ⟨⟨a, ls'⟩, hread, heq⟩ := map_eq_some_iff.mp h
    cases heq
    exact .inr (.inr ⟨fun w ls' heq => absurd heq (hword w ls'), hparen, a, hread, rfl⟩)

variable {a : Comparison}

theorem readFactor_comparison
    (hnot : ∀ w ls', ls = .word w :: ls' → isKeyword "NOT" w = false)
    (hparen : ∀ ls', ls ≠ .lparen :: ls') (h : readComparison ls = some (a, rest)) :
    readFactor whole again ls = some (.atom a, rest) := by
  unfold readFactor
  split
  next ls' => exact absurd rfl (hparen ls')
  next w ls' => rw [if_neg (by simp [hnot w ls' rfl]), h]; rfl
  next => rw [h]; rfl

/-- What `f` reads, `g` reads the same way. -/
def Reader.Extends (f g : Reader) : Prop := ∀ ls c rest, f ls = some (c, rest) → g ls = some (c, rest)

theorem readChain_extends
    {first first' next next' : Reader}
    (hfirst : first.Extends first') (hnext : next.Extends next') :
    (readChain kw join first next).Extends (readChain kw join first' next') := by
  intro ls c rest h
  obtain ⟨a, behind, hread, hbehind⟩ := readChain_eq_some.mp h
  refine readChain_eq_some.mpr ⟨a, behind, hfirst _ _ _ hread, ?_⟩
  rcases hbehind with ⟨w, ls', b, hw, hkw, hb, hc⟩ | hdone
  · exact .inl ⟨w, ls', b, hw, hkw, hnext _ _ _ hb, hc⟩
  · exact .inr hdone

theorem readFactor_extends {whole' again' : Reader} (hwhole : whole.Extends whole')
    (hagain : again.Extends again') :
    (readFactor whole again).Extends (readFactor whole' again') := by
  intro ls c rest h
  rcases readFactor_eq_some h with ⟨ls', c', rfl, hread, rfl⟩ | ⟨w, ls', c', rfl, hnot, hread, rfl⟩ |
    ⟨hnot, hparen, a, hread, rfl⟩
  · rw [readFactor, hwhole _ _ _ hread]
  · rw [readFactor, if_pos hnot, hagain _ _ _ hread]
    rfl
  · exact readFactor_comparison hnot hparen hread

theorem readers_extend_succ (n : Nat) :
    (readOr n).Extends (readOr (n + 1)) ∧ (readAnd n).Extends (readAnd (n + 1)) ∧
      (readNot n).Extends (readNot (n + 1)) := by
  induction n with
  | zero =>
    refine ⟨?_, ?_, ?_⟩ <;> intro ls c rest h
    · simp [readOr] at h
    · simp [readAnd] at h
    · simp [readNot] at h
  | succ n ih =>
    obtain ⟨hor, hh, hnot⟩ := ih
    exact ⟨readChain_extends hh hor, readChain_extends hnot hh, readFactor_extends hor hnot⟩

variable {n m : Nat}

theorem Reader.extends_of_le {f : Nat → Reader} (hf : ∀ n, (f n).Extends (f (n + 1)))
    (h : n ≤ m) : (f n).Extends (f m) := by
  induction h with
  | refl => exact fun _ _ _ h => h
  | step _ ih => exact fun ls c rest h => hf _ _ _ _ (ih ls c rest h)

theorem readOr_extends (h : n ≤ m) : (readOr n).Extends (readOr m) :=
  Reader.extends_of_le (fun n => (readers_extend_succ n).1) h

theorem readAnd_extends (h : n ≤ m) : (readAnd n).Extends (readAnd m) :=
  Reader.extends_of_le (fun n => (readers_extend_succ n).2.1) h

theorem readNot_extends (h : n ≤ m) : (readNot n).Extends (readNot m) :=
  Reader.extends_of_le (fun n => (readers_extend_succ n).2.2) h

theorem length_pathTail (ls : List Lexeme) : (pathTail ls).2.length ≤ ls.length := by
  fun_induction pathTail ls with
  | case1 w ls ih | case2 w ls ih => exact Nat.le_add_right_of_le (Nat.le_add_right_of_le ih)
  | case3 ls => exact le_refl _

theorem length_readOperand {o : Operand} (h : readOperand ls = some (o, rest)) :
    rest.length < ls.length := by
  unfold readOperand at h
  split at h
  next w ls =>
    split at h
    · cases h
    · cases h
      exact Nat.lt_succ_of_le (length_pathTail ls)
  next w ls =>
    cases h
    exact Nat.lt_succ_of_le (length_pathTail ls)
  next ls =>
    cases h
    exact Nat.lt_succ_self _
  next ls =>
    cases h
    exact Nat.lt_succ_self _
  next => cases h

theorem length_readComparison (h : readComparison ls = some (a, rest)) :
    rest.length < ls.length := by
  obtain ⟨⟨lhs, behind⟩, hlhs, h⟩ := bind_eq_some_iff.mp h
  have hlen := length_readOperand hlhs
  simp only at h
  split at h
  next o behind =>
    split at h
    · obtain ⟨⟨rhs, rest'⟩, hrhs, h⟩ := bind_eq_some_iff.mp h
      cases h
      have hlen' := length_readOperand hrhs
      exact lt_trans hlen' (Nat.lt_of_succ_lt hlen)
    · cases h
  next => cases h

theorem readers_enough (n : Nat) :
    (∀ ls c rest, readOr n ls = some (c, rest) →
      rest.length < ls.length ∧ readOr (3 * ls.length + 3) ls = some (c, rest)) ∧
    (∀ ls c rest, readAnd n ls = some (c, rest) →
      rest.length < ls.length ∧ readAnd (3 * ls.length + 2) ls = some (c, rest)) ∧
    (∀ ls c rest, readNot n ls = some (c, rest) →
      rest.length < ls.length ∧ readNot (3 * ls.length + 1) ls = some (c, rest)) := by
  induction n with
  | zero =>
    refine ⟨?_, ?_, ?_⟩ <;> intro ls c rest h
    · simp [readOr] at h
    · simp [readAnd] at h
    · simp [readNot] at h
  | succ n ih =>
    obtain ⟨hor, hh, hnot⟩ := ih
    refine ⟨?_, ?_, ?_⟩ <;> intro ls c rest h
    · rw [readOr] at h
      obtain ⟨a, behind, hread, hbehind⟩ := readChain_eq_some.mp h
      obtain ⟨hlen, hread⟩ := hh _ _ _ hread
      rcases hbehind with ⟨w, ls', b, rfl, hkw, hb, rfl⟩ | hdone
      · obtain ⟨hlen', hb⟩ := hor _ _ _ hb
        simp only [length_cons] at hlen
        refine ⟨by omega, readChain_eq_some.mpr ⟨a, _, hread, .inl ⟨w, ls', b, rfl, hkw, ?_, rfl⟩⟩⟩
        exact readOr_extends (by omega) _ _ _ hb
      · exact ⟨hdone.2.2 ▸ hlen, readChain_eq_some.mpr ⟨a, _, hread, .inr hdone⟩⟩
    · rw [readAnd] at h
      obtain ⟨a, behind, hread, hbehind⟩ := readChain_eq_some.mp h
      obtain ⟨hlen, hread⟩ := hnot _ _ _ hread
      rcases hbehind with ⟨w, ls', b, rfl, hkw, hb, rfl⟩ | hdone
      · obtain ⟨hlen', hb⟩ := hh _ _ _ hb
        simp only [length_cons] at hlen
        refine ⟨by omega, readChain_eq_some.mpr ⟨a, _, hread, .inl ⟨w, ls', b, rfl, hkw, ?_, rfl⟩⟩⟩
        exact readAnd_extends (by omega) _ _ _ hb
      · exact ⟨hdone.2.2 ▸ hlen, readChain_eq_some.mpr ⟨a, _, hread, .inr hdone⟩⟩
    · rw [readNot] at h
      rw [readNot]
      rcases readFactor_eq_some h with ⟨ls', c', rfl, hread, rfl⟩ |
        ⟨w, ls', c', rfl, hkw, hread, rfl⟩ | ⟨hword, hparen, a, hread, rfl⟩
      · obtain ⟨hlen, hread⟩ := hor _ _ _ hread
        simp only [length_cons] at hlen ⊢
        refine ⟨by omega, ?_⟩
        rw [readFactor, readOr_extends (by omega) _ _ _ hread]
      · obtain ⟨hlen, hread⟩ := hnot _ _ _ hread
        simp only [length_cons] at hlen ⊢
        refine ⟨by omega, ?_⟩
        rw [readFactor, if_pos hkw, readNot_extends (by omega) _ _ _ hread]
        rfl
      · exact ⟨length_readComparison hread, readFactor_comparison hword hparen hread⟩

end Readers

variable {c : Cond Comparison}

theorem readCondition_eq_some :
    readCondition s = some c ↔ ∃ ls n, lexemes s = some ls ∧ readOr n ls = some (c, []) := by
  unfold readCondition
  constructor
  · intro h
    split at h
    · cases h
    next ls hlex =>
      split at h
      next c' hread =>
        cases h
        exact ⟨ls, _, hlex, hread⟩
      next => cases h
  · rintro ⟨ls, n, hlex, hread⟩
    simp only [hlex, ((readers_enough n).1 _ _ _ hread).2]

variable {ls rest : List Lexeme}

theorem laterDisjuncts_readNot
    (h : readNot n ls = some (c, rest)) : c.laterDisjuncts = none := by
  cases n with
  | zero => simp [readNot] at h
  | succ n =>
    rcases readFactor_eq_some h with ⟨_, _, _, _, rfl⟩ | ⟨_, _, _, _, _, _, rfl⟩ |
      ⟨_, _, _, _, rfl⟩ <;> rfl

theorem laterDisjuncts_readAnd
    (h : readAnd n ls = some (c, rest)) : c.laterDisjuncts = none := by
  cases n with
  | zero => simp [readAnd] at h
  | succ n =>
    obtain ⟨a, _, hread, ⟨_, _, _, _, _, _, rfl⟩ | ⟨_, rfl, _⟩⟩ := readChain_eq_some.mp h
    · rfl
    · exact laterDisjuncts_readNot hread

variable {w : Str}

/-- A comparison and `AND` in front of a condition. -/
theorem readOr_comparison_and {front : List Lexeme} {a : Comparison}
    (hh : isKeyword "AND" w)
    (hnot : ∀ v ls', front ++ .word w :: ls = .word v :: ls' → isKeyword "NOT" v = false)
    (hparen : ∀ ls', front ++ .word w :: ls ≠ .lparen :: ls')
    (hfront : readComparison (front ++ .word w :: ls) = some (a, .word w :: ls))
    (hread : readOr n ls = some (c, [])) :
    ∃ m, readOr m (front ++ .word w :: ls) = some (Cond.restrict (.atom a) c, []) := by
  cases n with
  | zero => simp [readOr] at hread
  | succ n =>
    obtain ⟨d, behind, hd, hbehind⟩ := readChain_eq_some.mp hread
    have hfirst : ∀ k, readAnd (n + k + 2) (front ++ .word w :: ls) =
        some (.and (.atom a) d, behind) := by
      intro k
      refine readChain_eq_some.mpr ⟨.atom a, _, ?_, .inl ⟨w, ls, d, rfl, hh, ?_, rfl⟩⟩
      · rw [readNot]
        exact readFactor_comparison hnot hparen hfront
      · exact readAnd_extends (by omega) _ _ _ hd
    refine ⟨n + 3, ?_⟩
    refine readChain_eq_some.mpr ⟨_, behind, hfirst 0, ?_⟩
    rcases hbehind with ⟨v, ls', b, hv, hor, hb, rfl⟩ | ⟨hend, rfl, hrest⟩
    · exact .inl ⟨v, ls', b, hv, hor, readOr_extends (by omega) _ _ _ hb, rfl⟩
    · exact .inr ⟨hend, Cond.restrict_of_laterDisjuncts (laterDisjuncts_readAnd hd), hrest⟩

/-! ## The text of a comparison with a string -/

@[mk_iff]
structure NameWord (w : Str) : Prop where
  start : w.head?.any identStart = true
  chars : w.all identCont = true
  notConnective : connective w = false

instance (w : Str) : Decidable (NameWord w) := decidable_of_iff' _ (nameWord_iff w)

theorem NameWord.nonempty (h : NameWord w) : w ≠ [] := by
  rintro rfl
  cases h.start

section Lexing

variable {s : Str} {ls : List Lexeme}

theorem lexemes_space {c : Char} (hc : isSpace c) : lexemes (c :: s) = lexemes s := by
  have hnext : nextLexeme c s = some (none, s) := by rw [nextLexeme, if_pos hc]
  rw [lexemes_cons hnext]
  simp

theorem lexemes_word (hstart : w.head?.any identStart)
    (hchars : w.all identCont) (hs : s.head?.all (!identCont ·)) :
    lexemes (w ++ s) = (lexemes s).map (.word w :: ·) := by
  cases w with
  | nil => cases hstart
  | cons c w =>
    have hc : identStart c := by simpa using hstart
    have hspace : isSpace c = false := by
      rw [Bool.eq_false_iff]
      intro h
      simp only [isSpace, Bool.or_eq_true, beq_iff_eq] at h
      rcases h with ((((rfl | rfl) | rfl) | rfl) | rfl) | rfl <;> cases hc
    obtain ⟨htake, hdrop⟩ := takeWhile_append_of_all (by simp at hchars; simpa using hchars.2) hs
    have hnext : nextLexeme c (w ++ s) = some (some (.word (c :: w)), s) := by
      rw [nextLexeme, if_neg (by simp [hspace]), if_pos hc, htake, hdrop]
    exact lexemes_cons hnext

variable {x : Str}

theorem quotedBody_append {q : Char} (hx : q ∉ x) (hs : s.head? ≠ some q) :
    quotedBody q (x ++ q :: s) = some (x, s) := by
  induction x with
  | nil =>
    cases s with
    | nil => simp [quotedBody]
    | cons d s =>
      have hd : d ≠ q := fun h => hs (by rw [h]; rfl)
      simp [quotedBody, hd]
  | cons c x ih =>
    obtain ⟨hc, hx⟩ := not_or.mp (mt mem_cons.mpr hx)
    cases h : x ++ q :: s with
    | nil => simp at h
    | cons d r =>
      rw [cons_append, h, quotedBody, if_pos (Ne.symm hc), ← h, ih hx]
      rfl

theorem lexemes_string (hx : '\'' ∉ x) (hs : s.head? ≠ some '\'') :
    lexemes ('\'' :: x ++ '\'' :: s) = (lexemes s).map (.string x :: ·) := by
  have hnext : nextLexeme '\'' (x ++ '\'' :: s) = some (some (.string x), s) := by
    rw [nextLexeme, quotedBody_append hx hs]
    rfl
  exact lexemes_cons hnext

end Lexing

def equalsText (path : List Str) (x : Str) : Str :=
  ['.'].intercalate path ++ " = '" ++ x ++ "'"

def equalsComparison (path : List Str) (x : Str) : Comparison :=
  ⟨.column (path.map .word), ['='], .string x⟩

def pathLexemes : List Str → List Lexeme
  | [] => []
  | w :: ws => .word w :: ws.flatMap fun v => [.dot, .word v]

def equalsLexemes (path : List Str) (x : Str) : List Lexeme :=
  pathLexemes path ++ [.operator ['='], .string x]

section Equals

variable {path : List Str} {x s : Str} (hpath : path ≠ []) (hnames : ∀ w ∈ path, NameWord w)

include hpath hnames

theorem lexemes_path (hs : s.head?.all (!identCont ·)) :
    lexemes (['.'].intercalate path ++ s) = (lexemes s).map (pathLexemes path ++ ·) := by
  induction path with
  | nil => exact absurd rfl hpath
  | cons w ws ih =>
    have hw := hnames w mem_cons_self
    cases ws with
    | nil => simpa [pathLexemes] using lexemes_word hw.start hw.chars hs
    | cons v vs =>
      have htext : ['.'].intercalate (w :: v :: vs) ++ s =
          w ++ '.' :: (['.'].intercalate (v :: vs) ++ s) := by
        simp [List.intercalate]
      have hdot : ∀ r, lexemes ('.' :: r) = (lexemes r).map (Lexeme.dot :: ·) :=
        fun r => lexemes_cons (l := some .dot) rfl
      rw [htext, lexemes_word hw.start hw.chars rfl, hdot,
        ih (by simp) (fun u hu => hnames u (mem_cons_of_mem _ hu))]
      cases lexemes s <;> simp [pathLexemes]

theorem lexemes_equalsText (hx : '\'' ∉ x) (hs : s.head? ≠ some '\'') :
    lexemes (equalsText path x ++ s) = (lexemes s).map (equalsLexemes path x ++ ·) := by
  have htext : equalsText path x ++ s =
      ['.'].intercalate path ++ ' ' :: '=' :: ' ' :: ('\'' :: x ++ '\'' :: s) := by
    simp [equalsText]
  have hop : ∀ r, lexemes ('=' :: ' ' :: r) = (lexemes (' ' :: r)).map (Lexeme.operator ['='] :: ·) :=
    fun r => lexemes_cons (l := some (.operator ['='])) rfl
  rw [htext, lexemes_path hpath hnames rfl, lexemes_space rfl, hop,
    lexemes_space rfl, lexemes_string hx hs]
  cases lexemes s <;> simp [equalsLexemes]

omit hpath hnames in
theorem pathTail_names (ws : List Str) (o : Str) (rest : List Lexeme) :
    pathTail ((ws.flatMap fun v => [.dot, .word v]) ++ .operator o :: rest) =
      (ws.map .word, .operator o :: rest) := by
  induction ws with
  | nil => rfl
  | cons v ws ih => simp [pathTail, ih]

theorem readComparison_equals (rest : List Lexeme) :
    readComparison (equalsLexemes path x ++ rest) = some (equalsComparison path x, rest) := by
  cases path with
  | nil => exact absurd rfl hpath
  | cons w ws =>
    have hw := (hnames w mem_cons_self).notConnective
    have hlexemes : equalsLexemes (w :: ws) x ++ rest =
        .word w :: ((ws.flatMap fun v => [.dot, .word v]) ++ .operator ['='] :: .string x :: rest) := by
      simp [equalsLexemes, pathLexemes]
    rw [hlexemes, readComparison, readOperand, if_neg (by simp [hw]), pathTail_names]
    rfl

theorem equalsLexemes_head (ls : List Lexeme) :
    ∃ w ls', equalsLexemes path x ++ ls = .word w :: ls' ∧ isKeyword "NOT" w = false := by
  cases path with
  | nil => exact absurd rfl hpath
  | cons w ws =>
    have hw := (hnames w mem_cons_self).notConnective
    simp only [connective, Bool.or_eq_false_iff] at hw
    exact ⟨w, _, rfl, hw.2⟩

theorem readCondition_equals (hx : '\'' ∉ x) :
    readCondition (equalsText path x) = some (.atom (equalsComparison path x)) := by
  have hlex := lexemes_equalsText (s := []) hpath hnames hx (by simp)
  obtain ⟨w, ls', hhead, hnot⟩ := equalsLexemes_head hpath hnames []
  have hread := readComparison_equals (x := x) hpath hnames []
  simp only [List.append_nil, lexemes_nil, map_some] at hlex hhead hread
  refine readCondition_eq_some.mpr ⟨_, 3, hlex, ?_⟩
  have hfactor : readNot 1 (equalsLexemes path x) = some (.atom (equalsComparison path x), []) := by
    refine readFactor_comparison ?_ ?_ hread
    · rintro v ls'' heq
      cases hhead.symm.trans heq
      exact hnot
    · rintro ls'' heq
      cases hhead.symm.trans heq
  have hnone : ∀ kw : String, ∀ w ls', ([] : List Lexeme) = .word w :: ls' → isKeyword kw w = false :=
    fun _ _ _ h => (by cases h)
  exact readChain_eq_some.mpr ⟨_, [], readChain_eq_some.mpr
    ⟨_, [], hfactor, .inr ⟨hnone _, rfl, rfl⟩⟩, .inr ⟨hnone _, rfl, rfl⟩⟩

theorem readCondition_equals_and (hx : '\'' ∉ x) {c : Str} {cond : Cond Comparison}
    (hc : readCondition c = some cond) :
    readCondition (equalsText path x ++ (" AND " ++ c)) =
      some (Cond.restrict (.atom (equalsComparison path x)) cond) := by
  obtain ⟨ls, n, hlex, hread⟩ := readCondition_eq_some.mp hc
  have hh : lexemes (" AND " ++ c) = some (.word "AND" :: ls) := by
    have hword := lexemes_word (w := "AND") (s := ' ' :: c) rfl (by decide) rfl
    rw [lexemes_space rfl, hlex] at hword
    exact (lexemes_space rfl).trans hword
  have hlex' := lexemes_equalsText (s := " AND " ++ c) hpath hnames hx (by simp)
  rw [hh] at hlex'
  obtain ⟨w, ls', hhead, hnot⟩ :=
    equalsLexemes_head hpath hnames (.word "AND" :: ls)
  have hnot' : ∀ v ls'', equalsLexemes path x ++ .word "AND" :: ls = .word v :: ls'' →
      isKeyword "NOT" v = false := by
    rintro v ls'' heq
    cases hhead.symm.trans heq
    exact hnot
  have hparen : ∀ ls'', equalsLexemes path x ++ .word "AND" :: ls ≠ .lparen :: ls'' := by
    rintro ls'' heq
    cases hhead.symm.trans heq
  obtain ⟨m, hm⟩ := readOr_comparison_and (by decide) hnot' hparen
    (readComparison_equals hpath hnames _) hread
  exact readCondition_eq_some.mpr ⟨_, m, hlex', hm⟩

end Equals

end HeliosProxy.Postgres
