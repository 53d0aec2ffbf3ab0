import HeliosProxy.Journal.WriteLayouts
import HeliosProxy.Replay.Classify

/-!
# Words, one token after another

What `words` reads of a text: the word of its first token, if that is one, and the
words of the rest.
-/

namespace HeliosProxy.Replay

open Text Journal List Option

/-! ## A token takes a character at least -/

variable {s after : Str} {escapes : Bool}

theorem closeQuote_suffix {q : Char} {b : Bool}
    (h : closeQuote escapes q s = some (b, after)) : after <:+ s := by
  fun_induction closeQuote escapes q s generalizing b after with
  | case1 => cases h
  | case2 =>
    cases h
    exact nil_suffix
  | case3 | case4 => cases h
  | case5 c d s hnul hback hescapes ih =>
    obtain ⟨⟨b', after'⟩, hclose, heq⟩ := map_eq_some_iff.mp h
    cases heq
    exact ((ih hclose).trans (suffix_cons _ _)).trans (suffix_cons _ _)
  | case6 c d s hnul hback hescapes ih =>
    obtain ⟨⟨b', after'⟩, hclose, heq⟩ := map_eq_some_iff.mp h
    cases heq
    exact (ih hclose).trans (suffix_cons _ _)
  | case7 s hnul hback ih => exact ((ih h).trans (suffix_cons _ _)).trans (suffix_cons _ _)
  | case8 d s hnul hback hd =>
    cases h
    exact suffix_cons _ _
  | case9 c d s hnul hback hc ih => exact (ih h).trans (suffix_cons _ _)

variable {tag : Str}

theorem dollarTag_ne_nil (h : dollarTag s = some tag) : tag ≠ [] := by
  obtain ⟨-, htag⟩ := ite_none_right_eq_some.mp h
  cases htag
  exact cons_ne_nil _ _

variable {c : Char} {body : Str}

/-- The end of a dollar quote opened by `tag`. -/
theorem dollar_suffix {closed : Str} (htag : tag ≠ [])
    (h : findSub tag ((c :: s).drop tag.length) = some (body, closed)) :
    closed.drop tag.length <:+ s := by
  obtain ⟨n, hn⟩ : ∃ n, tag.length = n + 1 := ⟨tag.length - 1, by
    have := length_pos_of_ne_nil htag
    omega⟩
  rw [hn] at h
  have hclosed : closed <:+ s.drop n := ⟨body, (findSub_eq_some h).1.symm⟩
  exact ((drop_suffix _ _).trans hclosed).trans (drop_suffix _ _)

variable {t : Token}

theorem readToken_suffix
    (h : readToken escapes c s = some (t, after)) : after <:+ s := by
  unfold readToken at h
  split at h
  · cases h
    exact suffix_rfl
  split at h
  · cases h
    exact (dropWhile_suffix _).trans (suffix_cons _ _)
  · obtain ⟨r, hr, heq⟩ := map_eq_some_iff.mp h
    cases heq
    exact (skipNested_suffix hr).trans (suffix_cons _ _)
  · cases h
    exact suffix_rfl
  · cases h
  split at h
  · cases h
    exact dropWhile_suffix _
  split at h
  · obtain ⟨⟨b, r⟩, hr, heq⟩ := map_eq_some_iff.mp h
    cases heq
    exact closeQuote_suffix hr
  split at h
  · split at h
    · rename_i tag htag
      obtain ⟨⟨body, closed⟩, hr, heq⟩ := map_eq_some_iff.mp h
      cases heq
      exact dollar_suffix (dollarTag_ne_nil htag) hr
    · cases h
      exact suffix_rfl
  · cases h
    exact suffix_rfl

/-! ## The recursion -/

theorem wordsFuel_eq {fuel fuel' : Nat} (h : s.length < fuel) (h' : s.length < fuel') :
    wordsFuel fuel s = wordsFuel fuel' s := by
  induction fuel generalizing fuel' s with
  | zero => cases h
  | succ fuel ih =>
    cases fuel' with
    | zero => cases h'
    | succ fuel' =>
      cases s with
      | nil => rfl
      | cons c s =>
        rw [wordsFuel, wordsFuel]
        cases htoken : readToken false c s with
        | none => rfl
        | some p =>
          obtain ⟨t, after⟩ := p
          have hlen := (readToken_suffix htoken).length_le
          rw [length_cons] at h h'
          simp only [ih (show after.length < fuel by omega) (show after.length < fuel' by omega)]

theorem words_eq_none (h : readToken false c s = none) : words (c :: s) = ([], false) := by
  rw [words, wordsFuel, h]

theorem words_token (h : readToken false c s = some (t, after)) :
    words (c :: s) = ((wordOf (c :: s) t after).toList ++ (words after).1, (words after).2) := by
  have hlen := (readToken_suffix h).length_le
  rw [words, length_cons, wordsFuel, h]
  simp only [wordsFuel_eq (show after.length < s.length + 1 by omega) (Nat.lt_succ_self after.length)]
  rfl

theorem words_pass (h : readToken false c s = some (t, after))
    (hword : wordOf (c :: s) t after = none) : words (c :: s) = words after := by
  rw [words_token h, hword]
  rfl

/-! ## Gaps -/

theorem readToken_blank (hc : isSpace c) (s : Str) :
    readToken false c s = some (.space, s) ∨ readToken false c s = some (.other, s) := by
  simp only [isSpace, Bool.or_eq_true, beq_iff_eq] at hc
  rcases hc with ((((rfl | rfl) | rfl) | rfl) | rfl) | rfl
  all_goals first | exact .inl rfl | exact .inr rfl

theorem words_blank (hc : isSpace c) (s : Str) : words (c :: s) = words s := by
  rcases readToken_blank hc s with htoken | htoken
  · exact words_pass htoken rfl
  · exact words_pass htoken rfl

theorem readToken_line (hi : body.all (!isLineEnd ·))
    (he : isLineEnd c) :
    readToken escapes '-' ('-' :: (body ++ c :: s)) = some (.space, c :: s) := by
  exact congrArg (fun x => some (Token.space, x)) (span_line hi he s).2

theorem readToken_block (hc : closesAt 1 body) (s : Str) :
    readToken escapes '/' ('*' :: (body ++ s)) = some (.space, s) := by
  show (skipNested 1 (body ++ s)).map (Token.space, ·) = _
  rw [skipNested_of_closesAt hc Nat.one_pos]
  rfl

theorem words_gap {g : Str} (hg : Gap g) (s : Str) : words (g ++ s) = words s := by
  induction hg with
  | nil => rfl
  | blank hc hs ih => rw [cons_append, words_blank hc, ih]
  | @line body t c hbody hc hs ih =>
    have htext : "--" ++ body ++ c :: t ++ s = '-' :: '-' :: (body ++ c :: (t ++ s)) := by simp
    rw [htext, words_pass (readToken_line hbody hc) rfl, words_blank (isSpace_of_isLineEnd hc), ih]
  | @block body t hbody hs ih =>
    have htext : "/*" ++ body ++ t ++ s = '/' :: '*' :: (body ++ (t ++ s)) := by simp
    rw [htext, words_pass (readToken_block hbody _) rfl, ih]

/-! ## Identifiers -/

theorem readToken_word (hc : identStart c) (s : Str) :
    readToken escapes c s = some (.word (c :: s.takeWhile identCont), s.dropWhile identCont) := by
  have hspace : isAsciiWhitespace c = false := by
    rw [Bool.eq_false_iff]
    intro h
    simp only [isAsciiWhitespace, Bool.or_eq_true, beq_iff_eq] at h
    rcases h with (((rfl | rfl) | rfl) | rfl) | rfl <;> cases hc
  unfold readToken
  rw [if_neg (by simp [hspace])]
  split
  all_goals first | cases hc | rw [if_pos hc]

def callsAt (s : Str) : Bool := (s.dropWhile isAsciiWhitespace).head? == some '('

variable {w : Str}

theorem readToken_wholeWord (hc : identStart c) (hw : w.all identCont)
    (hs : s.head?.all (!identCont ·)) :
    readToken escapes c (w ++ s) = some (.word (c :: w), s) := by
  obtain ⟨htake, hdrop⟩ := takeWhile_append_of_all hw hs
  rw [readToken_word hc, htake, hdrop]

theorem words_word (hc : identStart c) (hw : w.all identCont)
    (hs : s.head?.all (!identCont ·)) :
    words (c :: w ++ s) =
      (⟨c :: w, callsAt s, false, c :: w ++ s⟩ :: (words s).1, (words s).2) :=
  words_token (readToken_wholeWord hc hw hs)

/-! ## Quoted names -/

def doubleQuotes (body : Str) : Str := body.flatMap fun c => if c = '"' then ['"', '"'] else [c]

def quoteIdent (body : Str) : Str := '"' :: doubleQuotes body ++ ['"']

theorem closeQuote_doubleQuotes (hbody : '\x00' ∉ body) (hs : s.head?.all (· != '"')) :
    closeQuote false '"' (doubleQuotes body ++ '"' :: s) = some (false, s) := by
  induction body with
  | nil =>
    cases s with
    | nil => rfl
    | cons d s =>
      have hd : d ≠ '"' := by simpa using hs
      show (if d = '"' then _ else some (false, d :: s)) = _
      rw [if_neg hd]
  | cons c body ih =>
    obtain ⟨hc, hbody⟩ := ne_and_not_mem_of_not_mem_cons hbody
    by_cases hq : c = '"'
    · rw [hq]
      exact ih hbody
    · obtain ⟨d, rest, hrest⟩ : ∃ d rest, doubleQuotes body ++ '"' :: s = d :: rest := by
        cases doubleQuotes body with
        | nil | cons d rest => exact ⟨_, _, rfl⟩
      have hcons : doubleQuotes (c :: body) ++ '"' :: s = c :: d :: rest := by
        rw [doubleQuotes, List.flatMap_cons, if_neg hq, ← hrest]
        rfl
      rw [hcons, closeQuote, if_neg (Ne.symm hc), if_neg (by simp), if_neg hq, ← hrest]
      exact ih hbody

theorem words_quoted (hbody : '\x00' ∉ body) (hs : s.head?.all (· != '"')) :
    words (quoteIdent body ++ s) =
      (⟨quoteIdent body, callsAt s, true, quoteIdent body ++ s⟩ :: (words s).1, (words s).2) := by
  have htoken : readToken false '"' (doubleQuotes body ++ '"' :: s) = some (.quoted '"' false, s) := by
    show (closeQuote false '"' (doubleQuotes body ++ '"' :: s)).map _ = _
    rw [closeQuote_doubleQuotes hbody hs]
    rfl
  have htext : quoteIdent body ++ s = '"' :: (doubleQuotes body ++ '"' :: s) := by simp [quoteIdent]
  have htake : (quoteIdent body ++ s).take ((quoteIdent body ++ s).length - s.length) = quoteIdent body := by
    rw [length_append, Nat.add_sub_cancel, take_left]
  rw [htext] at htake ⊢
  rw [words_token htoken]
  refine Prod.ext ?_ rfl
  exact congrArg (fun x => (⟨x, callsAt s, true, _⟩ : Word) :: (words s).1) htake

end HeliosProxy.Replay
