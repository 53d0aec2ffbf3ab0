import HeliosProxy.Postgres.Scan
import HeliosProxy.Replay.ReadPolicy
import HeliosProxy.Replay.Words

/-!
# The calls of a statement that may be sent again

A statement is read again only if its words that look like calls are on a list.  The
words are compared with the identifiers PostgreSQL's scanner reads in the text: behind
every token of the scanner the rest of the text is one whose words are all allowed.
-/

namespace HeliosProxy.Replay

open Text Journal Postgres List Option

variable {allowsCall : Str → Bool}

/-! ## Texts whose words are allowed -/

def Word.allowed (allowsCall : Str → Bool) (w : Word) : Bool :=
  !(w.call && (w.quoted || !allowsCall w.text))

def Eligible (allowsCall : Str → Bool) (s : Str) : Prop :=
  (words s).2 = true ∧ (words s).1.all (Word.allowed allowsCall) = true

theorem eligible_nil : Eligible allowsCall [] := ⟨rfl, rfl⟩

variable {c : Char} {s : Str}

theorem eligible_cons :
    Eligible allowsCall (c :: s) ↔
      ∃ t after, readToken false c s = some (t, after) ∧
        (wordOf (c :: s) t after).all (Word.allowed allowsCall) ∧ Eligible allowsCall after := by
  cases ht : readToken false c s with
  | none =>
    rw [Eligible, words_eq_none ht]
    simp
  | some p =>
    obtain ⟨t, after⟩ := p
    rw [Eligible, words_token ht]
    have hj : ((wordOf (c :: s) t after).toList ++ (words after).1).all (Word.allowed allowsCall) =
        ((wordOf (c :: s) t after).all (Word.allowed allowsCall) &&
          (words after).1.all (Word.allowed allowsCall)) := by
      cases wordOf (c :: s) t after <;> simp
    simp only [hj, Bool.and_eq_true, Option.some.injEq, Prod.mk.injEq]
    constructor
    · rintro ⟨hl, hh, hr⟩
      exact ⟨t, after, ⟨rfl, rfl⟩, hh, hl, hr⟩
    · rintro ⟨_, _, ⟨rfl, rfl⟩, hh, hl, hr⟩
      exact ⟨hl, hh, hr⟩

variable {after : Str}

theorem Eligible.behind {t : Token} (hok : Eligible allowsCall (c :: s))
    (ht : readToken false c s = some (t, after)) :
    (wordOf (c :: s) t after).all (Word.allowed allowsCall) ∧ Eligible allowsCall after := by
  obtain ⟨t', after', ht', hh, hr⟩ := eligible_cons.mp hok
  rw [ht] at ht'
  obtain ⟨rfl, rfl⟩ := Prod.mk.inj (Option.some.inj ht')
  exact ⟨hh, hr⟩

/-- Characters that are tokens of their own for the proxy, where no comment starts. -/
def passed (c : Char) : Bool := !identStart c && c != '\'' && c != '"' && c != '$'

theorem Eligible.pass (hok : Eligible allowsCall (c :: s)) (hp : passed c)
    (hc : commentAt (c :: s) = false) : Eligible allowsCall s := by
  simp only [passed, Bool.and_eq_true, Bool.not_eq_true', bne_iff_ne] at hp
  obtain ⟨⟨⟨hs, hq⟩, hd⟩, hdo⟩ := hp
  obtain ⟨t, after, ht, -, hr⟩ := eligible_cons.mp hok
  suffices hsa : after = s from hsa ▸ hr
  unfold readToken at ht
  split at ht
  · cases ht
    rfl
  split at ht
  · cases hc
  · cases hc
  · cases ht
    rfl
  · cases ht
  rw [if_neg (by simp [hs]), if_neg (by simp [hq, hd])] at ht
  cases ht
  rfl

variable {x : Str}

theorem Eligible.passes
    (ha : ∀ y e z, x = y ++ e :: z → passed e ∧ commentAt (e :: (z ++ after)) = false)
    (hok : Eligible allowsCall (x ++ after)) : Eligible allowsCall after := by
  induction x with
  | nil => exact hok
  | cons c x ih =>
    obtain ⟨hp, hc⟩ := ha [] c x rfl
    exact ih (fun y e z hcu => ha (c :: y) e z (by rw [hcu]; rfl)) (Eligible.pass hok hp hc)

theorem Eligible.word (hok : Eligible allowsCall (c :: s)) (hs : identStart c) :
    (callsAt (s.dropWhile identCont) → allowsCall (c :: s.takeWhile identCont)) ∧
      Eligible allowsCall (s.dropWhile identCont) := by
  obtain ⟨hh, hr⟩ := hok.behind (readToken_word hs s)
  refine ⟨fun hc => ?_, hr⟩
  simp only [wordOf, all_some, Word.allowed] at hh
  rw [callsAt] at hc
  simpa [hc] using hh

/-! ## Quotes -/

variable {q : Char} {escapes b : Bool} {r : Str} {doubles : Bool} {t : Str} {d : Char}

/-- Whether a backslash of the text hides a quote `q`. -/
def hidesQuote (q : Char) : Str → Bool
  | c :: d :: s => if c = '\\' then d == q || hidesQuote q s else hidesQuote q (d :: s)
  | _ => false

theorem hidesQuote_cons (hc : c ≠ '\\') (q : Char) (t : Str) :
    hidesQuote q (c :: t) = hidesQuote q t := by
  cases t with
  | nil => rfl
  | cons d t => rw [hidesQuote, if_neg hc]

theorem closeQuote_pass (hc : c ≠ q) (hr : closeQuote false q (c :: s) = some (b, r)) :
    ∃ b', closeQuote false q s = some (b', r) := by
  cases s with
  | nil =>
    rw [closeQuote, if_neg hc] at hr
    cases hr
  | cons d s =>
    rw [closeQuote] at hr
    split at hr
    · cases hr
    split at hr
    · obtain ⟨⟨b', r'⟩, hi, ⟨⟩⟩ := map_eq_some_iff.mp hr
      exact ⟨b', hi⟩
    · exact ⟨b, hr⟩

/-- The two scanners close a quote at the same place, where no backslash hides one.  A bit
string ends at a doubled quote, behind which the proxy goes on as if in a new constant. -/
theorem closeQuote_of_quotedText (hq : q = '\'' ∨ q = '"')
    (hc : quotedText q doubles escapes s = some (t, after))
    (hp : escapes → hidesQuote q t = false) (hr : closeQuote false q s = some (b, r)) :
    r = after ∨ doubles = false ∧ ∃ s' b', after = q :: s' ∧ closeQuote false q s' = some (b', r) := by
  have hn : q ≠ '\x00' ∧ q ≠ '\\' := by rcases hq with rfl | rfl <;> decide
  have hdbl (d : Char) (s : Str) : closeQuote false q (q :: d :: s) =
      if d = q then closeQuote false q s else some (false, d :: s) := by
    rw [closeQuote, if_neg hn.1, if_neg fun h => hn.2 h.1, if_pos rfl]
  fun_induction quotedText q doubles escapes s generalizing b t with
  | case1 => cases hr
  | case2 =>
    cases hc
    rw [closeQuote, if_pos rfl] at hr
    cases hr
    exact .inl rfl
  | case3 => cases hc
  | case4 d s hd ih =>
    obtain ⟨⟨t', after'⟩, hre, ⟨⟩⟩ := map_eq_some_iff.mp hc
    rw [hdbl, if_pos hd.2] at hr
    refine ih hre (fun he => ?_) hr
    rw [← hidesQuote_cons hn.2, ← hidesQuote_cons hn.2]
    exact hd.2 ▸ hp he
  | case5 d s hd =>
    cases hc
    rw [hdbl] at hr
    split at hr
    · next h =>
      refine .inr ⟨Bool.eq_false_iff.mpr fun hdo => hd ⟨hdo, h⟩, s, b, by rw [h], hr⟩
    · cases hr
      exact .inl rfl
  | case6 c d s ho he ih =>
    obtain ⟨⟨t', after'⟩, hre, ⟨⟩⟩ := map_eq_some_iff.mp hc
    have hd := hp he.1
    rw [hidesQuote, if_pos he.2, Bool.or_eq_false_iff, beq_eq_false_iff_ne] at hd
    obtain ⟨b₁, hr₁⟩ := closeQuote_pass ho hr
    obtain ⟨b₂, hr₂⟩ := closeQuote_pass hd.1 hr₁
    exact ih hre (fun _ => hd.2) hr₂
  | case7 c d s ho he ih =>
    obtain ⟨⟨t', after'⟩, hre, ⟨⟩⟩ := map_eq_some_iff.mp hc
    obtain ⟨b₁, hr₁⟩ := closeQuote_pass ho hr
    refine ih hre (fun hon => ?_) hr₁
    rw [← hidesQuote_cons (fun h => he ⟨hon, h⟩)]
    exact hp hon

/-- The text between two quotes does not end in half an escape. -/
theorem hidesQuote_append (hq : q ≠ '\\') (hc : quotedText q doubles true s = some (t, after))
    (x : Str) : hidesQuote q (t ++ x) = (hidesQuote q t || hidesQuote q x) := by
  fun_induction quotedText q doubles true s generalizing t with
  | case1 | case3 => cases hc
  | case2 | case5 =>
    cases hc
    rfl
  | case4 d s hd ih =>
    obtain ⟨⟨t', after'⟩, hre, ⟨⟩⟩ := map_eq_some_iff.mp hc
    rw [hd.2, cons_append, cons_append, hidesQuote_cons hq, hidesQuote_cons hq, hidesQuote_cons hq,
      hidesQuote_cons hq, ih hre]
  | case6 c d s ho he ih =>
    obtain ⟨⟨t', after'⟩, hre, ⟨⟩⟩ := map_eq_some_iff.mp hc
    rw [cons_append, cons_append, hidesQuote, hidesQuote, if_pos he.2, if_pos he.2, ih hre,
      Bool.or_assoc]
  | case7 c d s ho he ih =>
    obtain ⟨⟨t', after'⟩, hre, ⟨⟩⟩ := map_eq_some_iff.mp hc
    have hb : c ≠ '\\' := fun h => he ⟨rfl, h⟩
    rw [cons_append, hidesQuote_cons hb, hidesQuote_cons hb, ih hre]

theorem readToken_quote (hq : q = '\'' ∨ q = '"') (s : Str) :
    readToken false q s = (closeQuote false q s).map fun (b, after) => (.quoted q b, after) := by
  rcases hq with rfl | rfl
  · rfl
  · rfl

theorem Eligible.quote (hq : q = '\'' ∨ q = '"') (hok : Eligible allowsCall (q :: s)) :
    ∃ b after, closeQuote false q s = some (b, after) ∧ Eligible allowsCall after ∧
      (q = '"' → callsAt after = false) := by
  obtain ⟨t, after, ht, hh, hr⟩ := eligible_cons.mp hok
  rw [readToken_quote hq] at ht
  obtain ⟨⟨b, after'⟩, hc, hs⟩ := map_eq_some_iff.mp ht
  obtain ⟨rfl, rfl⟩ := Prod.mk.inj hs
  refine ⟨b, after', hc, hr, ?_⟩
  rintro rfl
  rw [callsAt, Bool.eq_false_iff]
  intro hca
  simp [wordOf, Word.allowed, hca] at hh

theorem Eligible.closed (hok : Eligible allowsCall ('\'' :: s))
    (hc : quotedText '\'' doubles escapes s = some (t, after))
    (hp : escapes → hidesQuote '\'' t = false) : Eligible allowsCall after := by
  obtain ⟨b, r, hre, hr, -⟩ := hok.quote (.inl rfl)
  rcases closeQuote_of_quotedText (.inl rfl) hc hp hre with rfl | ⟨-, s', b', rfl, ha⟩
  · exact hr
  · refine eligible_cons.mpr ⟨.quoted '\'' b', r, ?_, rfl, hr⟩
    rw [readToken_quote (.inl rfl), ha]
    rfl

theorem Eligible.blank (hok : Eligible allowsCall (c :: s)) (hb : isSpace c) :
    Eligible allowsCall s := by
  rcases readToken_blank hb s with ht | ht
  · exact (hok.behind ht).2
  · exact (hok.behind ht).2

theorem Eligible.lineComment (hok : Eligible allowsCall ('-' :: '-' :: s)) :
    Eligible allowsCall (s.dropWhile fun c => c != '\n' && c != '\r') :=
  (hok.behind rfl).2

variable {s' : Str}

theorem Eligible.continued {comment newline : Bool}
    (hc : quoteContinue comment newline s = some s')
    (hok : Eligible allowsCall (if comment then s.dropWhile fun c => c != '\n' && c != '\r' else s)) :
    Eligible allowsCall ('\'' :: s') := by
  fun_induction quoteContinue comment newline s with
  | case1 => cases hc
  | case2 newline c s he ih =>
    simp only [isNewline, Bool.or_eq_true, beq_iff_eq] at he
    rw [dropWhile_cons_of_neg (by rcases he with rfl | rfl <;> decide)] at hok
    refine ih hc (hok.blank ?_)
    rcases he with rfl | rfl <;> rfl
  | case3 newline c s hg ih =>
    rw [dropWhile_cons_of_pos (by simpa [isNewline] using hg)] at hok
    exact ih hc hok
  | case4 newline s ih => exact ih hc hok.lineComment
  | case5 =>
    cases hc
    exact hok
  | case6 => cases hc
  | case7 newline c s hn hno hb ih => exact ih hc (hok.blank hb)
  | case8 => cases hc

theorem Eligible.constant {fuel : Nat} (hok : Eligible allowsCall ('\'' :: s))
    (hr : constantFuel doubles escapes fuel s = some (t, after))
    (hp : escapes → hidesQuote '\'' t = false) : Eligible allowsCall after := by
  induction fuel generalizing s t with
  | zero => cases hr
  | succ fuel ih =>
    rw [constantFuel] at hr
    cases hc : quotedText '\'' doubles escapes s with
    | none => simp [hc] at hr
    | some p =>
      obtain ⟨t', after'⟩ := p
      simp only [hc] at hr
      cases hco : quoteContinue false false after' with
      | none =>
        simp only [hco] at hr
        cases hr
        exact hok.closed hc hp
      | some s' =>
        simp only [hco] at hr
        obtain ⟨⟨t'', after''⟩, hre, ⟨⟩⟩ := map_eq_some_iff.mp hr
        have hparts : escapes → hidesQuote '\'' t' = false ∧ hidesQuote '\'' t'' = false := by
          rintro rfl
          rw [← Bool.or_eq_false_iff, ← hidesQuote_append (by decide) hc]
          exact hp rfl
        have hh := hok.closed hc fun ho => (hparts ho).1
        exact ih (Eligible.continued hco hh) hre fun ho => (hparts ho).2

/-! ## Dollar quotes, numbers and operators -/

theorem passed_of_isDigit (hd : c.isDigit) : passed c := by
  have ha : "0123456789".toList.all passed := by rfl
  exact List.all_eq_true.mp ha c (isDigit_mem hd)

theorem passed_of_opChar (ho : opChar c) : passed c := by
  have ha : "~!@#^&|`?+-*/%<>=".toList.all passed := by rfl
  exact List.all_eq_true.mp ha c (contains_iff_mem.mp ho)

theorem commentAt_of_isDigit (hd : c.isDigit) (s : Str) :
    commentAt (c :: s) = false := by
  apply commentAt_eq_false
  · rintro r rfl
    cases hd
  · rintro r rfl
    cases hd

theorem dropWhile_of_head (hs : s.head?.any identCont = false) : s.dropWhile identCont = s := by
  cases s with
  | nil => rfl
  | cons d s => exact dropWhile_cons_of_neg (by simpa using hs)

theorem dropWhile_append_of_ne_nil {y : Str} (hm : x.dropWhile identCont ≠ []) :
    (x ++ y).dropWhile identCont = x.dropWhile identCont ++ y := by
  rw [dropWhile_append, if_neg (by simpa using hm)]

theorem lastRun_append (front : Str)
    (hw : (x.reverse.takeWhile identCont).any identStart) :
    ((front ++ x).reverse.takeWhile identCont).any identStart := by
  rw [List.any_eq_true] at hw ⊢
  obtain ⟨c, hm, hs⟩ := hw
  refine ⟨c, ?_, hs⟩
  rw [reverse_append, takeWhile_append]
  split
  · next ha =>
    have hrun : x.reverse.takeWhile identCont <+: x.reverse := takeWhile_prefix _
    exact mem_append_left _ (hrun.subset hm)
  · exact hm

/-- The characters of a number are passed, unless a word that starts in it goes on
behind it. -/
theorem Eligible.number (hc : x.all numberChar)
    (he : (x.reverse.takeWhile identCont).any identStart → after.head?.any identCont = false)
    (hok : Eligible allowsCall (x ++ after)) : Eligible allowsCall after := by
  induction hlen : x.length using Nat.strong_induction_on generalizing x with
  | _ n ih =>
    cases x with
    | nil => exact hok
    | cons c x =>
      rw [all_cons, Bool.and_eq_true] at hc
      rw [cons_append] at hok
      cases hs : identStart c with
      | false =>
        have hsh : c.isDigit ∨ c = '.' := by
          have hh := hc.1
          simp only [numberChar, identCont, hs, Bool.false_or, Bool.or_eq_true, Bool.and_eq_true,
            beq_iff_eq, bne_iff_ne] at hh
          tauto
        have hr : Eligible allowsCall (x ++ after) := by
          rcases hsh with hd | rfl
          · exact Eligible.pass hok (passed_of_isDigit hd) (commentAt_of_isDigit hd _)
          · exact Eligible.pass hok rfl rfl
        exact ih x.length (by rw [← hlen]; simp) hc.2 (fun hwo => he (lastRun_append [c] hwo)) hr rfl
      | true =>
        obtain ⟨-, hr⟩ := Eligible.word hok hs
        cases hw : x.all identCont with
        | true =>
          have ha : (c :: x).reverse.all identCont := by
            rw [all_reverse, all_cons, hw, identCont, hs]
            rfl
          have hst : after.head?.any identCont = false := by
            apply he
            rw [takeWhile_eq_self_iff.mpr (List.all_eq_true.mp ha), any_reverse, any_cons, hs]
            rfl
          rwa [dropWhile_append_of_pos (List.all_eq_true.mp hw), dropWhile_of_head hst] at hr
        | false =>
          have hsp : x = x.takeWhile identCont ++ x.dropWhile identCont := takeWhile_append_dropWhile.symm
          have hm : x.dropWhile identCont ≠ [] := by
            intro hn
            rw [dropWhile_eq_nil_iff] at hn
            rw [List.all_eq_true.mpr hn] at hw
            cases hw
          rw [dropWhile_append_of_ne_nil hm] at hr
          refine ih (x.dropWhile identCont).length ?_ ?_ (fun hwo => he ?_) hr rfl
          · rw [← hlen]
            exact Nat.lt_succ_of_le (dropWhile_suffix _).length_le
          · exact List.all_eq_true.mpr fun d hme =>
              List.all_eq_true.mp hc.2 d ((dropWhile_suffix _).subset hme)
          · have hag := lastRun_append (c :: x.takeWhile identCont) hwo
            rwa [cons_append, ← hsp] at hag

theorem Eligible.numberText (hsh : NumberText t) (hst : runsOn t after = false)
    (hok : Eligible allowsCall (t ++ after)) : Eligible allowsCall after := by
  simp only [runsOn, Bool.or_eq_false_iff, Bool.and_eq_false_iff] at hst
  have he : (t.reverse.takeWhile identCont).any identStart → after.head?.any identCont = false :=
    fun hw => hst.2.resolve_right (by simp [hw])
  cases hsh with
  | plain hc => exact hok.number hc he
  | @signed m e sign digits hc hl hi hf hla =>
    have hfr : (m ++ [e]).all numberChar :=
      all_append_of hc (by rcases hl with rfl | rfl <;> rfl)
    have hb : Eligible allowsCall (sign :: (digits ++ after)) := by
      refine Eligible.number hfr (fun _ => ?_) (by simpa using hok)
      rcases hi with rfl | rfl <;> rfl
    have hco : commentAt (sign :: (digits ++ after)) = false := by
      obtain ⟨d, ds, rfl⟩ := exists_cons_of_ne_nil (l := digits) (by rintro rfl; cases hf)
      have hd : d.isDigit := hf
      apply commentAt_eq_false
      · rintro r - hs
        rw [(List.cons.inj hs).1] at hd
        cases hd
      · rintro r - hs
        rw [(List.cons.inj hs).1] at hd
        cases hd
    have hr := hb.pass (passed_of_opChar (by rcases hi with rfl | rfl <;> rfl)) hco
    refine hr.number hla fun hw => he ?_
    have ha := lastRun_append (m ++ [e, sign]) hw
    simpa using ha

theorem Eligible.symbol (hok : Eligible allowsCall (c :: s))
    (hc : commentAt (c :: s) = false) (hp : passed c) :
    Eligible allowsCall ((c :: s).drop (symbolAt c s).length) := by
  obtain ⟨v, rest, -, hs, hch⟩ := symbolAt_spec hc
  have hb : (c :: s).drop (symbolAt c s).length = rest := by
    conv_lhs => rw [hs]
    exact drop_left
  rw [hb]
  refine Eligible.passes (fun y e z hcu => ?_) (by rwa [← hs])
  obtain ⟨hsh, hpl⟩ := hch y e z hcu
  refine ⟨?_, hpl⟩
  rcases hsh with ho | rfl | rfl | rfl
  · exact passed_of_opChar ho
  · rfl
  · rfl
  · exact hp

theorem Eligible.digits (ha : ∀ c ∈ x, c.isDigit)
    (hok : Eligible allowsCall (x ++ after)) : Eligible allowsCall after := by
  refine hok.passes fun y e z hc => ?_
  have hd := ha e (hc ▸ mem_append_right y mem_cons_self)
  exact ⟨passed_of_isDigit hd, commentAt_of_isDigit hd _⟩

theorem readToken_dollar (s : Str) :
    readToken false '$' s =
      match dollarTag ('$' :: s) with
      | some tag =>
        (findSub tag (('$' :: s).drop tag.length)).map fun (_, closed) => (.dollar, closed.drop tag.length)
      | none => some (.other, s) := rfl

variable {t : SqlToken}

theorem Eligible.dollar (hok : Eligible allowsCall ('$' :: s))
    (hr : dollarAt s = some (t, after)) : Eligible allowsCall after := by
  unfold dollarAt at hr
  split at hr
  case h_1 tag ho =>
    obtain ⟨⟨body, closed⟩, hf, ⟨⟩⟩ := map_eq_some_iff.mp hr
    have ht : readToken false '$' s = some (.dollar, closed.drop tag.length) := by
      obtain ⟨n, hl⟩ := Nat.exists_eq_succ_of_ne_zero
        (fun hn => dollarTag_ne_nil ho (length_eq_zero_iff.mp hn))
      rw [hl] at hf
      rw [readToken_dollar, ho]
      simp only [hl, drop_succ_cons]
      rw [Nat.succ_eq_add_one, Nat.add_sub_cancel] at hf
      rw [hf]
      rfl
    exact (hok.behind ht).2
  case h_2 hn =>
    have ht : readToken false '$' s = some (.other, s) := by rw [readToken_dollar, hn]
    have hre := (hok.behind ht).2
    simp only at hr
    split at hr
    · cases hr
      exact hre
    · split at hr
      · cases hr
      · cases hr
        have hs : s.takeWhile Char.isDigit ++ s.dropWhile Char.isDigit = s :=
          takeWhile_append_dropWhile
        rw [← hs] at hre
        exact hre.digits fun c hm => (mem_takeWhile_imp hm)

/-! ## Tokens -/

theorem Eligible.opensString {k : StringKind} (hok : Eligible allowsCall (c :: s))
    (ho : opensString c s = some (k, s')) : Eligible allowsCall ('\'' :: s') := by
  unfold Postgres.opensString at ho
  split at ho
  all_goals first
    | cases ho
      done
    | cases ho
      first
        | exact hok

theorem Eligible.opensQuoted {tok : Str → SqlToken} (hok : Eligible allowsCall (c :: s))
    (ho : opensQuoted c s = some (tok, s')) : Eligible allowsCall ('"' :: s') := by
  unfold Postgres.opensQuoted at ho
  split at ho
  case h_1 =>
    cases ho
    exact hok
  case h_2 =>
    cases ho
    exact (Eligible.word hok rfl).2.pass rfl rfl
  case h_3 =>
    cases ho
    exact (Eligible.word hok rfl).2.pass rfl rfl
  case h_4 => cases ho

def TokenAllowed (allowsCall : Str → Bool) (calls : Bool) : SqlToken → Prop
  | .ident w => calls = true → allowsCall w = true
  | .quoted _ | .unicodeQuoted _ => calls = false
  | _ => True

def plainConstant : SqlToken → Bool
  | .string .escape t => !hidesQuote '\'' t
  | _ => true

theorem Eligible.token (hok : Eligible allowsCall (c :: s))
    (hco : commentAt (c :: s) = false) (hre : tokenAt c s = some (t, after))
    (hp : plainConstant t) :
    Eligible allowsCall after ∧ TokenAllowed allowsCall (callsAt after) t := by
  rcases tokenAt_cases hre with ⟨k, s', body, ho, rfl, hcon⟩ | ⟨tok, s', body, ho, rfl, hq⟩ |
    ⟨hn, hno, ⟨hs, rfl, rfl⟩ | ⟨rfl, hd⟩ | ⟨number, -, hdi, hst, rfl⟩ |
      ⟨hs, hd, rfl, rfl⟩⟩
  · refine ⟨(hok.opensString ho).constant hcon fun he => ?_, trivial⟩
    cases k <;> first | cases he; done | simpa [plainConstant] using hp
  · obtain ⟨b, r, hcl, hr, hc⟩ := (hok.opensQuoted ho).quote (.inr rfl)
    obtain rfl := (closeQuote_of_quotedText (.inr rfl) hq (by rintro ⟨⟩) hcl).resolve_right nofun
    refine ⟨hr, ?_⟩
    rcases (opensQuoted_spec ho).1 with rfl | rfl
    · exact hc rfl
    · exact hc rfl
  · obtain ⟨hc, hr⟩ := hok.word hs
    exact ⟨hr, hc⟩
  · refine ⟨hok.dollar hd, ?_⟩
    rcases dollarAt_token hd with ⟨tag, body, rfl⟩ | ⟨digits, rfl⟩ | rfl <;> trivial
  · obtain ⟨hsp, hsh⟩ := numberAt_spec hdi
    rw [hsp] at hok
    exact ⟨hok.numberText hsh hst, trivial⟩
  · refine ⟨hok.symbol hco ?_, trivial⟩
    have hqu : c ≠ '\'' := by
      rintro rfl
      cases hn
    have hdq : c ≠ '"' := by
      rintro rfl
      cases hno
    simp [passed, hs, hqu, hdq, hd]

/-! ## Calls among the tokens -/

/-- The tokens behind an identifier; `UESCAPE` and its constant belong to the identifier in
front of them. -/
def tokensBehind : SqlToken → List SqlToken → List SqlToken
  | .unicodeQuoted _, .ident w :: .string k body :: ts =>
    if eqIgnoreCase w "UESCAPE" then ts else .ident w :: .string k body :: ts
  | _, ts => ts

/-- Whether PostgreSQL reads a parenthesis behind the token `t`. -/
def callFollows (t : SqlToken) (us : List Scanned) : Bool :=
  (tokensBehind t (tokensOf us)).head? == some (.op ['('])

/-- Whether the proxy sees a parenthesis there: it stands behind blanks only, without a
vertical tab. -/
def callShown : List Scanned → Bool
  | .blank c :: us => isAsciiWhitespace c && callShown us
  | .token t :: _ => t == .op ['(']
  | .comment _ :: _ | [] => false

def CallsAllowed (allowsCall : Str → Bool) : List Scanned → Prop
  | [] => True
  | .token t :: us => TokenAllowed allowsCall (callFollows t us) t ∧ CallsAllowed allowsCall us
  | _ :: us => CallsAllowed allowsCall us

/-- The calls that the proxy does not see are allowed. -/
def HiddenAllowed (allowsCall : Str → Bool) : List Scanned → Prop
  | [] => True
  | .token t :: us =>
    (callShown us = false → TokenAllowed allowsCall (callFollows t us) t) ∧
      HiddenAllowed allowsCall us
  | _ :: us => HiddenAllowed allowsCall us

/-- No backslash of a constant hides a quote. -/
def plainConstants (us : List Scanned) : Bool := (tokensOf us).all plainConstant

theorem tokenAt_paren (hc : commentAt (c :: s) = false)
    (hr : tokenAt c s = some (.op ['('], after)) : c = '(' := by
  rcases tokenAt_cases hr with ⟨k, s', body, -, ht, -⟩ | ⟨tok, s', body, ho, ht, -⟩ |
    ⟨-, -, ⟨-, ht, -⟩ | ⟨-, hd⟩ | ⟨number, -, -, -, ht⟩ | ⟨-, -, ht, -⟩⟩
  · cases ht
  · rcases (opensQuoted_spec ho).1 with rfl | rfl <;> cases ht
  · cases ht
  · rcases dollarAt_token hd with ⟨tag, body, ht⟩ | ⟨digits, ht⟩ | ht <;> cases ht
  · cases ht
  · obtain ⟨v, rest, hs, -⟩ := symbolAt_spec hc
    rw [hs] at ht
    exact (List.cons.inj (SqlToken.op.inj ht)).1.symm

variable {rest : Str} {us : List Scanned}

theorem callsAt_of_callShown (hs : Scans s us rest) (hg : callShown us) : callsAt s := by
  induction hs with
  | nil => cases hg
  | cons hr _ ih =>
    rcases scannedAt_cases hr with ⟨-, rfl, rfl⟩ | ⟨_, _, -, -, rfl, -⟩ | ⟨_, _, -, -, rfl, -⟩ |
      ⟨-, hc, t, rfl, ht⟩
    · rw [callShown, Bool.and_eq_true] at hg
      rw [callsAt, dropWhile_cons_of_pos hg.1]
      exact ih hg.2
    · cases hg
    · cases hg
    · obtain rfl : t = .op ['('] := by simpa [callShown] using hg
      obtain rfl := tokenAt_paren hc ht
      rfl

theorem callFollows_of_callShown (hg : callShown us) (t : SqlToken) : callFollows t us := by
  have hhead : ∃ ts, tokensOf us = .op ['('] :: ts := by
    fun_induction callShown us with
    | case1 c us ih =>
      rw [Bool.and_eq_true] at hg
      exact ih hg.2
    | case2 t us =>
      obtain rfl := beq_iff_eq.mp hg
      exact ⟨tokensOf us, rfl⟩
    | case3 | case4 => cases hg
  obtain ⟨ts, hts⟩ := hhead
  rw [callFollows, hts]
  cases t <;> rfl

/-- A token that the proxy lets stand in front of `after` may stand in front of what
PostgreSQL reads there, if no call is hidden. -/
theorem TokenAllowed.scans
    (ha : TokenAllowed allowsCall (callsAt after) t) (hs : Scans after us rest)
    (hp : callShown us = false → TokenAllowed allowsCall (callFollows t us) t) :
    TokenAllowed allowsCall (callFollows t us) t := by
  cases hg : callShown us with
  | false => exact hp hg
  | true =>
    rw [callsAt_of_callShown hs hg] at ha
    rwa [callFollows_of_callShown hg]

theorem HiddenAllowed.of_callsAllowed (h : CallsAllowed allowsCall us) :
    HiddenAllowed allowsCall us := by
  fun_induction CallsAllowed allowsCall us with
  | case1 => trivial
  | case2 t us ih => exact ⟨fun _ => h.1, ih h.2⟩
  | case3 u us hu ih =>
    cases u
    case token t => exact absurd rfl (hu t)
    all_goals exact ih h

theorem Eligible.calls (hok : Eligible allowsCall s) (hs : Scans s us rest)
    (hc : plainConstants us) (hp : HiddenAllowed allowsCall us) : CallsAllowed allowsCall us := by
  induction hs with
  | nil => trivial
  | cons hr hb ih =>
    rcases scannedAt_cases hr with ⟨hbl, rfl, rfl⟩ | ⟨_, _, rfl, rfl, rfl, rfl⟩ |
      ⟨_, _, rfl, rfl, rfl, hsk⟩ | ⟨-, hco, t, rfl, ht⟩
    · exact ih (hok.blank hbl) hc hp
    · refine ih ?_ hc hp
      have hl := hok.lineComment
      rwa [show (fun c => c != '\n' && c != '\r') = fun c => !isNewline c from
        funext fun c => by simp [isNewline, bne]] at hl
    · have ht : readToken false '/' ('*' :: _) = some (.space, _) := congrArg (Option.map _) hsk
      exact ih (hok.behind ht).2 hc hp
    · obtain ⟨hpc, hcs⟩ : plainConstant t ∧ plainConstants _ := Bool.and_eq_true_iff.mp hc
      obtain ⟨hn, ha⟩ := hok.token hco ht hpc
      exact ⟨ha.scans hb hp.1, ih hn hcs hp.2⟩

/-! ## The end of a statement -/

def tailChar (c : Char) : Bool := isWhitespace c || c == ';'

theorem not_mem_tail {tail : Str} (he : tail.all tailChar) (ho : tailChar d = false) :
    d ∉ tail := by
  intro hm
  rw [List.all_eq_true.mp he d hm] at ho
  cases ho

theorem tailChar_cases (he : tailChar c) :
    identStart c ∨ isSpace c ∨ c = ';' := by
  rw [tailChar, Bool.or_eq_true, beq_iff_eq] at he
  rcases he with hb | rfl
  case inr => exact .inr (.inr rfl)
  by_cases ha : c.toNat < 128
  · have hc : (9 ≤ c.toNat ∧ c.toNat ≤ 13) ∨ c.toNat = 32 := by
      simp only [isWhitespace, Bool.or_eq_true, Bool.and_eq_true, decide_eq_true_eq, beq_iff_eq] at hb
      omega
    right
    left
    rw [← Char.ofNat_toNat c]
    rcases hc with ⟨hl, hh⟩ | hc
    · interval_cases c.toNat <;> rfl
    · rw [hc]
      rfl
  · left
    simp only [identStart, isAscii, ha]
    simp

theorem callsAt_append {tail : Str} (s : Str) (he : tail.all tailChar) :
    callsAt (s ++ tail) = callsAt s := by
  rw [callsAt, callsAt, dropWhile_append]
  split
  · next hem =>
    rw [List.isEmpty_iff.mp hem, Bool.eq_iff_iff, beq_iff_eq]
    refine ⟨fun hh => ?_, fun hn => (by cases hn)⟩
    have hm := (dropWhile_suffix isAsciiWhitespace).subset (mem_of_mem_head? hh)
    exact absurd hm (not_mem_tail he rfl)
  · next hmo =>
    rw [head?_append_of_ne_nil]
    simpa using hmo

theorem Eligible.tail {tail : Str} (he : tail.all tailChar) : Eligible allowsCall tail := by
  induction hlen : tail.length using Nat.strong_induction_on generalizing tail with
  | _ n ih =>
    cases tail with
    | nil => exact eligible_nil
    | cons c s =>
      have ha (r : Str) (hs : r <:+ s) : Eligible allowsCall r ∧ callsAt r = false := by
        have hr : r.all tailChar :=
          List.all_eq_true.mpr fun d hm =>
            List.all_eq_true.mp he d (mem_cons_of_mem _ (hs.subset hm))
        have hsh := hs.length_le
        exact ⟨ih r.length (by rw [← hlen, length_cons]; omega) hr rfl, callsAt_append [] hr⟩
      rcases tailChar_cases (List.all_eq_true.mp he c mem_cons_self) with hst | hb | rfl
      · obtain ⟨hr, hc⟩ := ha _ (dropWhile_suffix identCont)
        refine eligible_cons.mpr ⟨_, _, readToken_word hst s, ?_, hr⟩
        rw [callsAt] at hc
        simp [wordOf, Word.allowed, hc]
      · rcases readToken_blank hb s with ht | ht
        · exact eligible_cons.mpr ⟨_, _, ht, rfl, (ha s suffix_rfl).1⟩
        · exact eligible_cons.mpr ⟨_, _, ht, rfl, (ha s suffix_rfl).1⟩
      · exact eligible_cons.mpr ⟨.semicolon, s, rfl, rfl, (ha s suffix_rfl).1⟩

theorem closeQuote_append {tail : Str} (hq : q = '\'' ∨ q = '"')
    (he : tail.all tailChar) (hc : closeQuote false q s = some (b, r)) :
    closeQuote false q (s ++ tail) = some (b, r ++ tail) := by
  fun_induction closeQuote false q s generalizing b with
  | case1 => cases hc
  | case2 =>
    cases hc
    cases tail with
    | nil => rw [List.append_nil, List.append_nil, closeQuote, if_pos rfl]
    | cons d tail =>
      have ho : d ≠ q := by
        rintro rfl
        refine not_mem_tail he ?_ mem_cons_self
        rcases hq with rfl | rfl <;> rfl
      rw [singleton_append, closeQuote, if_neg, if_neg, if_pos rfl, if_neg ho, nil_append]
      · rcases hq with rfl | rfl <;> decide
      · rcases hq with rfl | rfl <;> decide
  | case3 | case4 => cases hc
  | case5 c d s hn hb ha ih => cases ha
  | case6 c d s hn hb hes ih =>
    obtain ⟨⟨b', r'⟩, hi, ⟨⟩⟩ := map_eq_some_iff.mp hc
    rw [cons_append, cons_append, closeQuote, if_neg hn, if_pos hb, if_neg hes,
      ← cons_append, ih hi]
    rfl
  | case7 s hn hb ih =>
    rw [cons_append, cons_append, closeQuote, if_neg hn, if_neg hb, if_pos rfl, if_pos rfl]
    exact ih hc
  | case8 d s ho hn hb =>
    cases hc
    rw [cons_append, cons_append, closeQuote, if_neg hn, if_neg hb, if_pos rfl, if_neg ho]
  | case9 c d s hn hb ho ih =>
    rw [cons_append, cons_append, closeQuote, if_neg hn, if_neg hb, if_neg ho,
      ← cons_append]
    exact ih hc

theorem skipNested_append {depth : Nat} (tail : Str) (hs : skipNested depth s = some r) :
    skipNested depth (s ++ tail) = some (r ++ tail) := by
  fun_induction skipNested depth s with
  | case1 depth s ih => exact ih hs
  | case2 depth s hsh =>
    cases hs
    rw [cons_append, cons_append, skipNested, if_pos hsh]
  | case3 depth s hsh ih =>
    rw [cons_append, cons_append, skipNested, if_neg hsh]
    exact ih hs
  | case4 depth c s ho hc ih =>
    cases s with
    | nil => cases hs
    | cons d s =>
      rw [cons_append, skipNested]
      · exact ih hs
      · rintro t rfl hsa
        exact ho s rfl (by rw [(List.cons.inj hsa).1])
      · rintro t rfl hsa
        exact hc s rfl (by rw [(List.cons.inj hsa).1])
  | case5 => cases hs

theorem drop_length_takeWhile (p : Char → Bool) (s : Str) : s.drop (s.takeWhile p).length = s.dropWhile p := by
  induction s with
  | nil => rfl
  | cons c s ih =>
    by_cases hh : p c
    · rw [takeWhile_cons_of_pos hh, dropWhile_cons_of_pos hh]
      exact ih
    · rw [takeWhile_cons_of_neg hh, dropWhile_cons_of_neg hh]
      rfl

theorem takeWhile_append_of_stops {p : Char → Bool} (hs : s.dropWhile p ≠ []) (tail : Str) :
    (s ++ tail).takeWhile p = s.takeWhile p := by
  have hi : (s.takeWhile p).length ≠ s.length := by
    intro hw
    have hj := congrArg List.length (takeWhile_append_dropWhile (p := p) (l := s))
    rw [length_append] at hj
    exact hs (length_eq_zero_iff.mp (by omega))
  rw [takeWhile_append, if_neg hi]

/-- A run of characters ends as before, or at the end of the text and may then go on in
the tail. -/
theorem dropWhile_append_cases (p : Char → Bool) (s tail : Str) :
    s.dropWhile p = [] ∧ (s ++ tail).dropWhile p = tail.dropWhile p ∨
      (s ++ tail).dropWhile p = s.dropWhile p ++ tail ∧ (s ++ tail).takeWhile p = s.takeWhile p := by
  rw [dropWhile_append]
  split
  · next he => exact .inl ⟨List.isEmpty_iff.mp he, rfl⟩
  · next hm => exact .inr ⟨rfl, takeWhile_append_of_stops (by simpa using hm) tail⟩

theorem dollarTag_length {tag : Str} (ho : dollarTag s = some tag) : tag.length ≤ s.length := by
  obtain ⟨hh, hs⟩ := ite_none_right_eq_some.mp ho
  cases hs
  rw [beq_iff_eq, head?_drop] at hh
  have hi := (List.getElem?_eq_some_iff.mp hh).1
  simp only [length_append, length_cons, length_nil]
  omega

theorem dollarTag_word (hs : identStart c) (s : Str) :
    dollarTag ('$' :: c :: s) =
      if (s.dropWhile fun c => identStart c || c.isDigit).head? == some '$' then
        some ('$' :: (c :: s.takeWhile fun c => identStart c || c.isDigit) ++ ['$'])
      else none := by
  simp only [dollarTag, drop_succ_cons, drop_zero, if_pos hs, length_cons]
  rw [show 1 + ((s.takeWhile fun c => identStart c || c.isDigit).length + 1) =
    (s.takeWhile fun c => identStart c || c.isDigit).length + 1 + 1 by omega, drop_succ_cons,
    drop_succ_cons, drop_length_takeWhile]

theorem dollarTag_append {tail : Str} (he : tail.all tailChar) :
    dollarTag ('$' :: (s ++ tail)) = dollarTag ('$' :: s) := by
  have hd : '$' ∉ tail := not_mem_tail he rfl
  have hl (p : Char → Bool) {t : Str} (hsu : t <:+ tail) : ((t.dropWhile p).head? == some '$') = false := by
    rw [beq_eq_false_iff_ne]
    intro hh
    exact hd (hsu.subset ((dropWhile_suffix p).subset (mem_of_mem_head? hh)))
  cases s with
  | nil =>
    cases tail with
    | nil => rfl
    | cons c tail =>
      by_cases hs : identStart c
      · rw [nil_append, dollarTag_word hs, if_neg (by simp [hl _ (suffix_cons c tail)])]
        rfl
      · have ho : c ≠ '$' := fun hsa => hd (hsa ▸ mem_cons_self)
        simp [dollarTag, hs, ho]
  | cons c s =>
    rw [cons_append]
    by_cases hs : identStart c
    · rw [dollarTag_word hs, dollarTag_word hs, dropWhile_append]
      split
      · next hem =>
        rw [if_neg (by simp [hl _ suffix_rfl]), List.isEmpty_iff.mp hem]
        rfl
      · next hm =>
        have hst : s.dropWhile (fun c => identStart c || c.isDigit) ≠ [] := by simpa using hm
        rw [head?_append_of_ne_nil _ hst, takeWhile_append_of_stops hst]
    · simp [dollarTag, hs]

/-- Whether a token may stand where `calls` says that a call is. -/
def Token.allowed (allowsCall : Str → Bool) (calls : Bool) : Token → Bool
  | .word w => !calls || allowsCall w
  | .quoted '"' _ => !calls
  | _ => true

theorem wordOf_allowed (x r : Str) (t : Token) :
    (wordOf x t r).all (Word.allowed allowsCall) = t.allowed allowsCall (callsAt r) := by
  unfold wordOf callsAt
  split
  · simp [Word.allowed, Token.allowed]
  · simp [Word.allowed, Token.allowed]
  · next hw hq => rw [Token.allowed.eq_3 _ _ _ hw hq, all_none]

theorem commentAt_append {tail : Str} (he : tail.all tailChar)
    (hc : commentAt (c :: s) = false) : commentAt (c :: (s ++ tail)) = false := by
  refine commentAt_eq_false (fun r hs hw => ?_) (fun r hs hw => ?_)
  all_goals
    subst hs
    cases s with
    | nil => exact not_mem_tail he rfl (show _ ∈ tail from hw ▸ mem_cons_self)
    | cons d s =>
      cases hw
      cases hc

theorem readToken_other (hb : ¬ isAsciiWhitespace c)
    (hc : commentAt (c :: s) = false) (hs : c ≠ ';') (hn : c ≠ '\x00')
    (hst : ¬ identStart c) (hq : ¬ (c = '\'' ∨ c = '"')) (hd : c ≠ '$') :
    readToken false c s = some (.other, s) := by
  unfold readToken
  rw [if_neg hb]
  split
  · cases hc
  · cases hc
  · exact absurd rfl hs
  · exact absurd rfl hn
  · rw [if_neg hst, if_neg hq, if_neg hd]

theorem readToken_append {tail : Str} {t : Token} (he : tail.all tailChar)
    (ht : readToken false c s = some (t, r)) (hh : t.allowed allowsCall (callsAt r)) :
    ∃ t' tail', tail' <:+ tail ∧ readToken false c (s ++ tail) = some (t', r ++ tail') ∧
      t'.allowed allowsCall (callsAt (r ++ tail')) := by
  have hw (hsa : readToken false c (s ++ tail) = some (t, r ++ tail)) :
      ∃ t' tail', tail' <:+ tail ∧ readToken false c (s ++ tail) = some (t', r ++ tail') ∧
        t'.allowed allowsCall (callsAt (r ++ tail')) :=
    ⟨t, tail, suffix_rfl, hsa, by rw [callsAt_append r he, hh]⟩
  by_cases hs : identStart c
  · rw [readToken_word hs] at ht
    cases ht
    rcases dropWhile_append_cases identCont s tail with ⟨hem, hr⟩ | ⟨hr, hwo⟩
    · refine ⟨.word (c :: (s ++ tail).takeWhile identCont), _, dropWhile_suffix identCont, ?_, ?_⟩
      · rw [readToken_word hs, hr, hem, nil_append]
      · have hl : (tail.dropWhile identCont).all tailChar :=
          List.all_eq_true.mpr fun d hm => List.all_eq_true.mp he d ((dropWhile_suffix _).subset hm)
        rw [callsAt_append _ hl, hem]
        rfl
    · exact hw (by rw [readToken_word hs, hr, hwo])
  unfold readToken at ht
  split at ht
  case isTrue hb =>
    cases ht
    exact hw (by unfold readToken; rw [if_pos hb])
  case isFalse hb =>
    split at ht
    case h_1 rest =>
      cases ht
      rcases dropWhile_append_cases (fun c => c != '\n' && c != '\r') rest tail with ⟨hem, hst⟩ | ⟨hst, -⟩
      · refine ⟨.space, tail.dropWhile fun c => c != '\n' && c != '\r', dropWhile_suffix _, ?_, rfl⟩
        rw [hem, ← hst]
        rfl
      · refine hw ?_
        rw [← hst]
        rfl
    case h_2 rest =>
      obtain ⟨after, hsk, ⟨⟩⟩ := map_eq_some_iff.mp ht
      exact hw (congrArg (Option.map _) (skipNested_append tail hsk))
    case h_3 =>
      cases ht
      exact hw rfl
    case h_4 => cases ht
    case h_5 hse hn hda hsl =>
      split at ht
      case isTrue hq =>
        obtain ⟨⟨b, after⟩, hc, ⟨⟩⟩ := map_eq_some_iff.mp ht
        refine hw ?_
        rw [readToken_quote hq, closeQuote_append hq he hc]
        rfl
      case isFalse hq =>
        split at ht
        case isFalse hd =>
          cases ht
          have hco : commentAt (c :: s) = false := commentAt_eq_false hda hsl
          exact hw (readToken_other hb (commentAt_append he hco) hse hn hs hq hd)
        case isTrue hd =>
          subst hd
          refine hw ?_
          rw [readToken_dollar, dollarTag_append he]
          cases ho : dollarTag ('$' :: s) with
          | some tag =>
            simp only [ho] at ht
            obtain ⟨⟨body, closed⟩, hf, ⟨⟩⟩ := map_eq_some_iff.mp ht
            have hcl := (findSub_eq_some hf).2.length_le
            simp only
            rw [← cons_append, drop_append_of_le_length (dollarTag_length ho),
              findSub_append hf tail, ← drop_append_of_le_length hcl]
            rfl
          | none =>
            simp only [ho] at ht
            cases ht
            rfl

theorem Eligible.append {tail : Str} (hok : Eligible allowsCall s) (he : tail.all tailChar) :
    Eligible allowsCall (s ++ tail) := by
  induction hlen : s.length using Nat.strong_induction_on generalizing s tail with
  | _ n ih =>
    cases s with
    | nil => exact .tail he
    | cons c s =>
      obtain ⟨t, r, ht, hh, hr⟩ := eligible_cons.mp hok
      rw [wordOf_allowed] at hh
      obtain ⟨t', tail', hs, ht', here'⟩ := readToken_append he ht hh
      have hsh := (readToken_suffix ht).length_le
      refine eligible_cons.mpr ⟨t', r ++ tail', ht', by rw [wordOf_allowed, here'], ?_⟩
      refine ih r.length (by rw [← hlen, length_cons]; omega) hr ?_ rfl
      exact List.all_eq_true.mpr fun d hm => List.all_eq_true.mp he d (hs.subset hm)

/-! ## Statements -/

theorem trimEnd_split (s : Str) : ∃ tail, s = trimEnd s ++ tail ∧ tail.all isWhitespace := by
  refine ⟨(s.reverse.takeWhile isWhitespace).reverse, ?_, ?_⟩
  · rw [trimEnd, ← reverse_append, takeWhile_append_dropWhile, reverse_reverse]
  · rw [all_reverse]
    exact all_takeWhile

theorem statementCore_split (hs : s.head?.all (!isWhitespace ·)) :
    ∃ tail, s = statementCore s ++ tail ∧ tail.all tailChar := by
  have hw {x : Str} (ha : x.all isWhitespace) : x.all tailChar :=
    List.all_eq_true.mpr fun c hm => by rw [tailChar, List.all_eq_true.mp ha c hm, Bool.true_or]
  have hf : trim s = trimEnd s := by rw [trim, trimStart, Text.dropWhile_of_head hs]
  obtain ⟨x, hwh, ha⟩ := trimEnd_split s
  rw [statementCore, hf]
  split
  case isTrue hse =>
    obtain ⟨y, hwh', ha'⟩ := trimEnd_split (trimEnd s).dropLast
    have hj : (trimEnd s).dropLast ++ [';'] = trimEnd s :=
      dropLast_append_getLast? ';' (beq_iff_eq.mp hse)
    refine ⟨y ++ ([';'] ++ x), ?_, ?_⟩
    · rw [← append_assoc, ← hwh', ← append_assoc, hj]
      exact hwh
    · rw [all_append, all_append, hw ha, hw ha']
      rfl
  case isFalse =>
    obtain ⟨y, hwh', ha'⟩ := trimEnd_split (trimEnd s)
    refine ⟨y ++ x, ?_, ?_⟩
    · rw [← append_assoc, ← hwh']
      exact hwh
    · rw [all_append, hw ha, hw ha']
      rfl

def readKeywords : List String := ["SELECT", "VALUES", "TABLE", "WITH"]

theorem startsWithCi_unique {a b : Str} (n : Nat) (hf : startsWithCi s a)
    (hse : startsWithCi s b) (hl : n ≤ a.length) (hl' : n ≤ b.length) :
    (a.take n).map Char.toLower = (b.take n).map Char.toLower := by
  have hlo {x : Str} (hs : startsWithCi s x) (hl : n ≤ x.length) :
      (s.take n).map Char.toLower = (x.take n).map Char.toLower := by
    rw [startsWithCi, eqIgnoreCase, beq_iff_eq] at hs
    have hc := congrArg (List.take n) hs
    rwa [← map_take, ← map_take, take_take, Nat.min_eq_left hl] at hc
  rw [← hlo hf hl, hlo hse hl']

theorem startsWithCi_append_right {k : Str} (tail : Str) (hs : startsWithCi s k) :
    startsWithCi (s ++ tail) k := by
  have hl : k.length ≤ s.length := by
    rw [startsWithCi, eqIgnoreCase, beq_iff_eq] at hs
    have hsa := congrArg List.length hs
    rw [length_map, length_map, length_take] at hsa
    omega
  rw [startsWithCi, take_append_of_le_length hl]
  exact hs

variable {c : Bool} {P : Prop}

theorem then_or_else {x y k : StmtKind} (hr : (if c then x else y) = k)
    (ht : c → x = k → P) (he : c = false → y = k → P) : P := by
  cases c with
  | true => exact ht rfl hr
  | false => exact he rfl hr

theorem absurd_or_else {x y k : StmtKind} (hr : (if c then x else y) = k) (ho : x ≠ k)
    (he : c = false → y = k → P) : P :=
  then_or_else hr (fun _ hs => absurd hs ho) he

variable {sql : Str}

/-- A read is one of those whose calls were looked at, or of three that have none to look at. -/
theorem trClassify_read (hr : trClassify allowsCall sql = .read) :
    Eligible allowsCall (statementCore sql) ∨
      ∃ k ∈ ["SHOW", "COPY", "EXPLAIN"], startsWithWordCi (statementCore sql) k.toList := by
  have he {b : Bool} (hre : (if b then StmtKind.read else .other) = .read) : b := by
    cases b
    · cases hre
    · rfl
  have hok (hre : trReadEligible allowsCall (statementCore sql)) : Eligible allowsCall (statementCore sql) := by
    simp only [trReadEligible, Bool.and_eq_true] at hre
    exact ⟨hre.1.2, hre.2⟩
  unfold trClassify at hr
  split at hr
  · cases hr
  · cases hr
  refine absurd_or_else hr (by rintro ⟨⟩) fun _ hr => ?_
  refine absurd_or_else hr (by split <;> rintro ⟨⟩) fun _ hr => ?_
  refine absurd_or_else hr (by rintro ⟨⟩) fun _ hr => ?_
  refine absurd_or_else hr (by rintro ⟨⟩) fun _ hr => ?_
  refine then_or_else hr (fun _ hr => .inl (hok (he hr))) fun _ hr => ?_
  refine then_or_else hr (fun hs _ => .inr ⟨"SHOW", by simp, hs⟩) fun _ hr => ?_
  refine then_or_else hr (fun _ hr => absurd_or_else hr (by rintro ⟨⟩) fun _ hr => .inl (hok (he hr)))
    fun _ hr => ?_
  refine then_or_else hr (fun hc _ => .inr ⟨"COPY", by simp, hc⟩) fun _ hr => ?_
  refine then_or_else hr (fun hex _ => .inr ⟨"EXPLAIN", by simp, hex⟩) fun _ hr => ?_
  exact absurd hr (by split <;> rintro ⟨⟩)

theorem readKeyword_apart : ∀ k ∈ readKeywords, ∀ k' ∈ ["SHOW", "COPY", "EXPLAIN"],
    2 ≤ k.toList.length ∧ 2 ≤ k'.toList.length ∧
      (k.toList.take 2).map Char.toLower ≠ (k'.toList.take 2).map Char.toLower := by
  decide

theorem readKeyword_head : ∀ k ∈ readKeywords,
    (k.toList.map Char.toLower).head?.any Char.isAlpha := by
  decide

theorem head_of_readKeyword {k : String} (hm : k ∈ readKeywords)
    (hs : startsWithCi s k.toList) : s.head?.all (!isWhitespace ·) := by
  have hf := readKeyword_head k hm
  rw [startsWithCi, eqIgnoreCase, beq_iff_eq] at hs
  rw [← hs] at hf
  cases s with
  | nil => rfl
  | cons c s =>
    cases hl : k.toList.length with
    | zero =>
      rw [hl] at hf
      cases hf
    | succ n =>
      rw [hl] at hf
      rw [head?_cons, all_some, isWhitespace_of_isAlpha (isAlpha_of_toLower hf)]
      rfl

theorem Eligible.lead {lead : Str} (hb : lead.all isSpace) (hok : Eligible allowsCall s) :
    Eligible allowsCall (lead ++ s) := by
  induction lead with
  | nil => exact hok
  | cons c lead ih =>
    rw [all_cons, Bool.and_eq_true] at hb
    rw [Eligible, cons_append, words_blank hb.1]
    exact ih hb.2

theorem eligible_of_read {lead : Str} (hb : lead.all isSpace)
    (hs : readKeywords.any (fun k => startsWithCi s k.toList))
    (hr : trClassify allowsCall (lead ++ s) = .read) : Eligible allowsCall (lead ++ s) := by
  obtain ⟨k, hm, hs⟩ := List.any_eq_true.mp hs
  obtain ⟨tail, hw, he⟩ := statementCore_split (head_of_readKeyword hm hs)
  have hco : statementCore (lead ++ s) = statementCore s := by
    have hwh : lead.all isWhitespace :=
      List.all_eq_true.mpr fun c hm => isWhitespace_of_isSpace (List.all_eq_true.mp hb c hm)
    rw [statementCore, trim_skip hwh, statementCore]
  have hc := trClassify_read hr
  rw [hco] at hc
  rcases hc with hok | ⟨k', hm', ho⟩
  · rw [hw]
    exact (hok.append he).lead hb
  · rw [startsWithWordCi, Bool.and_eq_true] at ho
    have ho := startsWithCi_append_right tail ho.1
    rw [← hw] at ho
    obtain ⟨hl, hl', ha⟩ := readKeyword_apart k hm k' hm'
    exact absurd (startsWithCi_unique 2 hs ho hl hl') ha

theorem trReadEligible_of_words {core : Str} (ws : List (Str × Bool × Bool))
    (hr : (words core).1.map (fun w => (w.text, w.call, w.quoted)) = ws) (hl : (words core).2)
    (hi : containsWordCi core "into" = false)
    (ha : (ws.all fun w => !(w.2.1 && (w.2.2 || !allowsCall w.1)))) :
    trReadEligible allowsCall core := by
  rw [← hr, List.all_map] at ha
  simp only [trReadEligible, hi, hl]
  exact ha

theorem trClassify_congr {p q : Str → Bool}
    (hs : trReadEligible p (statementCore sql) = trReadEligible q (statementCore sql)) :
    trClassify p sql = trClassify q sql := by
  unfold trClassify
  simp only [hs]

/-- `SELECT max(x), now/**/() FROM t`, as PostgreSQL reads it. -/
def hiddenNow : List Scanned :=
  [.token (.ident "SELECT"), .blank ' ', .token (.ident "max"), .token (.op ['(']),
    .token (.ident ['x']), .token (.op [')']), .token (.op [',']), .blank ' ',
    .token (.ident "now"), .comment "/**/", .token (.op ['(']), .token (.op [')']),
    .blank ' ', .token (.ident "FROM"), .blank ' ', .token (.ident ['t'])]

end HeliosProxy.Replay
