import HeliosProxy.Text.Statement

/-!
# Searching text for a word between spaces

A keyword is found by searching an upper-cased copy of a text for the keyword
between two spaces, and the text itself is cut at the byte position found.
-/

namespace HeliosProxy.Text

open List Option

/-- `str::to_uppercase`. -/
def toUpper (U : UnicodeTables) (s : Str) : Str := s.flatMap U.toUppercase

/-- `str::find`: the byte position of the first occurrence. -/
def findPos (needle s : Str) : Option Nat := (findSub needle s).map fun r => byteLen r.1

/-- `str::split_at`, which panics outside of the text or inside of a character. -/
def splitAtByte : Nat → Str → Option (Str × Str)
  | 0, s => some ([], s)
  | _ + 1, [] => none
  | n + 1, c :: s =>
    if c.utf8Size ≤ n + 1 then
      (splitAtByte (n + 1 - c.utf8Size) s).map fun (before, after) => (c :: before, after)
    else none

/-- `&s[n..]`. -/
def sliceFrom (n : Nat) (s : Str) : Option Str := (splitAtByte n s).map Prod.snd

/-- `&s[..n]`. -/
def sliceTo (n : Nat) (s : Str) : Option Str := (splitAtByte n s).map Prod.fst

/-- The first of the positions at which one of `needles` occurs. -/
def findFirst (needles : List Str) (s : Str) : Option Nat :=
  (needles.filterMap fun needle => findPos needle s).min?

def trimMatches (p : Char → Bool) (s : Str) : Str := ((s.dropWhile p).reverse.dropWhile p).reverse

def trimEndMatches (p : Char → Bool) (s : Str) : Str := (s.reverse.dropWhile p).reverse

/-! ## Bytes -/

@[simp] theorem byteLen_nil : byteLen [] = 0 := rfl

@[simp] theorem byteLen_cons (c : Char) (s : Str) : byteLen (c :: s) = c.utf8Size + byteLen s := rfl

@[simp] theorem byteLen_append (a b : Str) : byteLen (a ++ b) = byteLen a + byteLen b := by
  simp [byteLen]

theorem splitAtByte_append (a b : Str) : splitAtByte (byteLen a) (a ++ b) = some (a, b) := by
  induction a with
  | nil => cases b <;> rfl
  | cons c a ih =>
    obtain ⟨n, hn⟩ : ∃ n, byteLen (c :: a) = n + 1 :=
      Nat.exists_eq_succ_of_ne_zero (by have := c.utf8Size_pos; simp; omega)
    have hrest : n + 1 - c.utf8Size = byteLen a := by
      rw [← hn]
      exact Nat.add_sub_cancel_left _ _
    rw [hn, cons_append, splitAtByte, if_pos (by rw [← hn, byteLen_cons]; omega), hrest, ih]
    rfl

variable {a : Str}

theorem sliceFrom_append {n : Nat} (b : Str) (h : n = byteLen a) :
    sliceFrom n (a ++ b) = some b := by
  rw [sliceFrom, h, splitAtByte_append]
  rfl

theorem sliceTo_append {n : Nat} (b : Str) (h : n = byteLen a) :
    sliceTo n (a ++ b) = some a := by
  rw [sliceTo, h, splitAtByte_append]
  rfl

/-! ## The first occurrence -/

variable {n : Str}

theorem findSub_here (hne : n ≠ []) (s : Str) :
    findSub n (n ++ s) = some ([], n ++ s) := by
  cases n with
  | nil => exact absurd rfl hne
  | cons c n =>
    have hpre : (c :: n).isPrefixOf (c :: (n ++ s)) :=
      isPrefixOf_iff_prefix.mpr (prefix_append _ _)
    rw [cons_append, findSub, if_pos hpre]

variable {s : Str}

theorem findSub_eq_some {b : Str} (h : findSub n s = some (a, b)) : s = a ++ b ∧ n <+: b := by
  induction s generalizing a with
  | nil =>
    rw [findSub] at h
    split at h
    next hn =>
      cases h
      rw [List.isEmpty_iff.mp hn]
      exact ⟨rfl, nil_prefix⟩
    next => cases h
  | cons c s ih =>
    rw [findSub] at h
    split at h
    next hpre =>
      cases h
      exact ⟨rfl, isPrefixOf_iff_prefix.mp hpre⟩
    next =>
      obtain ⟨⟨a', b'⟩, hfind, heq⟩ := map_eq_some_iff.mp h
      cases heq
      obtain ⟨hs, hn⟩ := ih hfind
      exact ⟨by rw [hs]; rfl, hn⟩

theorem isPrefixOf_iff {n s : Str} : n.isPrefixOf s = true ↔ n <+: s :=
  isPrefixOf_iff_prefix

theorem findSub_isSome (h : n <:+: s) : (findSub n s).isSome := by
  induction s with
  | nil =>
    obtain rfl := infix_nil.mp h
    rfl
  | cons c s ih =>
    rw [findSub]
    split
    next => rfl
    next hpre =>
      rcases infix_cons_iff.mp h with hpre' | hwithin
      · exact absurd (isPrefixOf_iff.mpr hpre') hpre
      · rw [isSome_map]
        exact ih hwithin

theorem findSub_first (s : Str) (hn : n ≠ []) (h : ¬ n <:+: a ++ n.dropLast) :
    findSub n (a ++ (n ++ s)) = some (a, n ++ s) := by
  induction a with
  | nil => exact findSub_here hn s
  | cons c a ih =>
    have hlen : n.dropLast.length + 1 = n.length := by
      rw [length_dropLast]
      exact Nat.succ_pred_eq_of_pos (length_pos_iff.mpr hn)
    have hpre : n.isPrefixOf (c :: (a ++ (n ++ s))) = false := by
      rw [Bool.eq_false_iff, Ne, isPrefixOf_iff_prefix]
      intro hpre
      have hall : c :: (a ++ n.dropLast) <+: c :: (a ++ (n ++ s)) := by
        rw [cons_prefix_cons]
        have hcut : n.dropLast <+: n := dropLast_prefix n
        exact ⟨rfl, (prefix_append_right_inj a).mpr (hcut.trans (prefix_append n s))⟩
      have hle : n.length ≤ (c :: (a ++ n.dropLast)).length := by
        rw [length_cons, length_append]
        omega
      exact h (prefix_of_prefix_length_le hpre hall hle).isInfix
    have hrest := ih fun hwithin => h (hwithin.trans (suffix_cons c _).isInfix)
    rw [cons_append, findSub, hpre, hrest]
    rfl

/-! ## ASCII text -/

section Ascii

variable {s : Str} (hs : s.all isAscii = true)

include hs

variable {n : Nat}

end Ascii

variable {c : Char}

theorem isAscii_forall (P : Char → Prop) (h : ∀ n < 128, P (Char.ofNat n))
    (hc : isAscii c) : P c := by
  have hchar := h c.toNat (of_decide_eq_true hc)
  rwa [Char.ofNat_toNat] at hchar

/-! ## Words between spaces -/

def spaced (w : Str) : Str := ' ' :: w ++ [' ']

def NoSpace (w : Str) : Prop := ' ' ∉ w

instance (w : Str) : Decidable (NoSpace w) := inferInstanceAs (Decidable (' ' ∉ w))

variable {kw w : Str}

theorem prefix_of_noSpace (hkw : NoSpace kw) (hw : NoSpace w)
    (h : kw ++ [' '] <+: w ++ ' ' :: s) : kw = w := by
  induction kw generalizing w with
  | nil =>
    cases w with
    | nil => rfl
    | cons c w =>
      obtain ⟨r, hr⟩ := h
      cases hr
      exact absurd mem_cons_self hw
  | cons k kw ih =>
    obtain ⟨hk, hkw⟩ := not_or.mp (mt mem_cons.mpr hkw)
    cases w with
    | nil =>
      obtain ⟨r, hr⟩ := h
      cases hr
      exact absurd rfl hk
    | cons c w =>
      simp only [cons_append, cons_prefix_cons] at h
      rw [h.1, ih hkw (not_or.mp (mt mem_cons.mpr hw)).2 h.2]

theorem not_prefix_of_noSpace (hw : NoSpace w) : ¬ kw ++ [' '] <+: w :=
  fun h => hw (h.subset (by simp))

section Spaced

variable {kw w : Str}

theorem findSub_skip {h : Char} {n a : Str} (ha : h ∉ a) (s : Str) :
    findSub (h :: n) (a ++ s) = (findSub (h :: n) s).map fun r => (a ++ r.1, r.2) := by
  induction a with
  | nil => simp
  | cons c a ih =>
    obtain ⟨hc, ha⟩ := not_or.mp (mt mem_cons.mpr ha)
    have hpre : (h :: n).isPrefixOf (c :: (a ++ s)) = false := by
      simp [List.isPrefixOf, hc]
    rw [cons_append, findSub, hpre, ih ha]
    cases findSub (h :: n) s <;> simp

theorem findSub_spaced_end (hw : NoSpace w) : findSub (spaced kw) (' ' :: w) = none := by
  have hpre : (spaced kw).isPrefixOf (' ' :: w) = false := by
    rw [Bool.eq_false_iff, Ne, isPrefixOf_iff_prefix, spaced, cons_append,
      cons_prefix_cons]
    exact fun h => not_prefix_of_noSpace hw h.2
  have hnone : findSub (spaced kw) w = none := by
    have h := findSub_skip (n := kw ++ [' ']) hw []
    rw [List.append_nil] at h
    rw [spaced, cons_append, h]
    rfl
  rw [findSub, hpre, hnone]
  rfl

theorem findSub_spaced_here (kw s : Str) :
    findSub (spaced kw) (' ' :: kw ++ ' ' :: s) = some ([], ' ' :: kw ++ ' ' :: s) := by
  have htext : ' ' :: kw ++ ' ' :: s = spaced kw ++ s := by simp [spaced]
  rw [htext]
  exact findSub_here (by simp [spaced]) s

theorem findSub_spaced_skip (hkw : NoSpace kw) (hw : NoSpace w) (hne : kw ≠ w) (s : Str) :
    findSub (spaced kw) (' ' :: w ++ ' ' :: s) =
      (findSub (spaced kw) (' ' :: s)).map fun r => (' ' :: w ++ r.1, r.2) := by
  have hpre : (spaced kw).isPrefixOf (' ' :: (w ++ ' ' :: s)) = false := by
    rw [Bool.eq_false_iff, Ne, isPrefixOf_iff_prefix, spaced, cons_append,
      cons_prefix_cons]
    exact fun h => hne (prefix_of_noSpace hkw hw h.2)
  have hrest := findSub_skip (n := kw ++ [' ']) hw (' ' :: s)
  rw [cons_append, findSub, hpre, spaced, cons_append, hrest]
  cases findSub (' ' :: (kw ++ [' '])) (' ' :: s) <;> simp

end Spaced

def spacedOut (ws : List Str) : Str := ws.flatMap (' ' :: ·)

variable {ws : List Str}

theorem findSub_spacedOut (hkw : NoSpace kw) (hws : ∀ w ∈ ws, NoSpace w)
    (hnot : kw ∉ ws) (s : Str) :
    findSub (spaced kw) (spacedOut ws ++ ' ' :: s) =
      (findSub (spaced kw) (' ' :: s)).map fun r => (spacedOut ws ++ r.1, r.2) := by
  induction ws with
  | nil => simp [spacedOut]
  | cons w ws ih =>
    obtain ⟨hne, hnot⟩ := not_or.mp (mt mem_cons.mpr hnot)
    obtain ⟨r, hr⟩ : ∃ r, spacedOut ws ++ ' ' :: s = ' ' :: r := by
      cases ws with
      | nil => exact ⟨s, rfl⟩
      | cons v vs => exact ⟨v ++ spacedOut vs ++ ' ' :: s, by simp [spacedOut]⟩
    have htext : spacedOut (w :: ws) ++ ' ' :: s = ' ' :: w ++ ' ' :: r := by
      rw [← hr]
      simp [spacedOut]
    rw [htext, findSub_spaced_skip hkw (hws w mem_cons_self) hne, ← hr,
      ih (fun v hv => hws v (mem_cons_of_mem _ hv)) hnot]
    cases findSub (spaced kw) (' ' :: s) <;> simp [spacedOut]

theorem findSub_spacedOut_end (hkw : NoSpace kw)
    (hws : ∀ w ∈ ws, NoSpace w) (hnot : kw ∉ ws) : findSub (spaced kw) (spacedOut ws) = none := by
  rcases eq_nil_or_concat ws with rfl | ⟨vs, v, rfl⟩
  · rfl
  · have hvs : ∀ w ∈ vs, NoSpace w := fun w hw => hws w (by simp [hw])
    have hnot : kw ∉ vs := fun h => hnot (by simp [h])
    have hlast := findSub_spacedOut (s := v) hkw hvs hnot
    rw [findSub_spaced_end (hws v (by simp))] at hlast
    simpa [spacedOut] using hlast

/-! ## Upper case -/

section Upper

variable (U : UnicodeTables)

theorem toUpper_append (a b : Str) : toUpper U (a ++ b) = toUpper U a ++ toUpper U b :=
  flatMap_append

variable {s : Str}

theorem toUpper_ascii (h : s.all isAscii) : toUpper U s = s.map Char.toUpper := by
  induction s with
  | nil => rfl
  | cons c s ih =>
    simp only [all_cons, Bool.and_eq_true] at h
    rw [toUpper, flatMap_cons, U.toUppercase_ascii c h.1, map_cons, ← ih h.2]
    rfl

theorem toUpper_spacedOut (ws : List Str) :
    toUpper U (spacedOut ws) = spacedOut (ws.map (toUpper U)) := by
  induction ws with
  | nil => rfl
  | cons w ws ih =>
    have hcons : spacedOut (w :: ws) = [' '] ++ w ++ spacedOut ws := by simp [spacedOut]
    rw [hcons, toUpper_append, toUpper_append, ih, toUpper_ascii U rfl]
    simp [spacedOut]

end Upper

theorem byteLen_spacedOut {vs : List Str} (h : ws.map byteLen = vs.map byteLen) :
    byteLen (spacedOut ws) = byteLen (spacedOut vs) := by
  have hlen : ∀ ws : List Str, byteLen (spacedOut ws) = (ws.map byteLen).sum + ws.length := by
    intro ws
    induction ws with
    | nil => rfl
    | cons w ws ih =>
      have hcons : spacedOut (w :: ws) = [' '] ++ w ++ spacedOut ws := by simp [spacedOut]
      have hspace : byteLen [' '] = 1 := rfl
      rw [hcons, byteLen_append, byteLen_append, ih, hspace, map_cons, sum_cons,
        length_cons]
      omega
  have hcount : ws.length = vs.length := by simpa using congrArg List.length h
  rw [hlen, hlen, h, hcount]

/-- The first of the words `ws` between spaces. -/
theorem findPos_spacedOut (ws : List Str) (hkw : NoSpace kw) (hw : NoSpace w)
    (hws : ∀ v ∈ ws, NoSpace v) (hnot : kw ∉ ws) :
    findPos (spaced kw) (w ++ spacedOut ws ++ (spaced kw ++ s)) = some (byteLen (w ++ spacedOut ws)) := by
  have hhere := findSub_spaced_here kw s
  have htext : spaced kw ++ s = ' ' :: (kw ++ ' ' :: s) := by simp [spaced]
  rw [findPos, append_assoc, spaced, cons_append, findSub_skip hw]
  rw [← cons_append, ← spaced, htext, findSub_spacedOut hkw hws hnot, ← cons_append, hhere]
  simp

theorem findPos_spacedOut_end (ws : List Str) (hkw : NoSpace kw) (hw : NoSpace w)
    (hws : ∀ v ∈ ws, NoSpace v) (hnot : kw ∉ ws) : findPos (spaced kw) (w ++ spacedOut ws) = none := by
  rw [findPos, spaced, cons_append, findSub_skip hw, ← cons_append, ← spaced,
    findSub_spacedOut_end hkw hws hnot]
  rfl

theorem findFirst_eq_none {needles : List Str}
    (h : ∀ needle ∈ needles, findPos needle s = none) : findFirst needles s = none := by
  have hnil : needles.filterMap (fun needle => findPos needle s) = [] :=
    filterMap_eq_nil_iff.mpr h
  rw [findFirst, hnil]
  rfl

theorem findFirst_singleton (needle s : Str) : findFirst [needle] s = findPos needle s := by
  cases h : findPos needle s <;> simp [findFirst, h]

theorem byteLen_le_findPos {p : Nat} (hw : NoSpace w)
    (h : findPos (spaced kw) (w ++ s) = some p) : byteLen w ≤ p := by
  rw [findPos, spaced, cons_append, findSub_skip hw] at h
  obtain ⟨r, hr, rfl⟩ := map_eq_some_iff.mp h
  obtain ⟨r', -, rfl⟩ := map_eq_some_iff.mp hr
  simp

theorem findFirst_behind_word {kws : List Str} (hkws : ∀ k ∈ kws, NoSpace k)
    (hkw : kw ∈ kws) (hw : NoSpace w) (s : Str) :
    findFirst (kws.map spaced) (w ++ (spaced kw ++ s)) = some (byteLen w) := by
  rw [findFirst, min?_eq_some_iff]
  constructor
  · refine mem_filterMap.mpr ⟨spaced kw, List.mem_map_of_mem hkw, ?_⟩
    simpa [spacedOut] using findPos_spacedOut [] (hkws kw hkw) hw (by simp) (by simp)
  · intro p hp
    obtain ⟨needle, hneedle, hpos⟩ := mem_filterMap.mp hp
    obtain ⟨k, hk, rfl⟩ := List.mem_map.mp hneedle
    exact byteLen_le_findPos hw hpos

/-! ## Words -/

section Words

variable {sep : Char → Bool} {w : Str}

theorem splitOn_word (hw : w.all (!sep ·)) : splitOn sep w = [w] := by
  induction w with
  | nil => rfl
  | cons c w ih =>
    simp only [all_cons, Bool.and_eq_true, Bool.not_eq_true'] at hw
    rw [splitOn, hw.1, ih hw.2]
    rfl

variable {c : Char}

theorem splitOn_word_append (hw : w.all (!sep ·)) (hc : sep c)
    (s : Str) : splitOn sep (w ++ c :: s) = w :: splitOn sep s := by
  induction w with
  | nil => rw [nil_append, splitOn, if_pos hc]
  | cons d w ih =>
    simp only [all_cons, Bool.and_eq_true, Bool.not_eq_true'] at hw
    rw [cons_append, splitOn, hw.1, ih hw.2]
    rfl

theorem spacedWords_word (hw : w.all (!isWhitespace ·)) (hne : w ≠ []) :
    spacedWords w = [w] := by
  rw [spacedWords, splitOn_word hw]
  simp [hne]

theorem spacedWords_append (hw : w.all (!isWhitespace ·)) (hne : w ≠ []) (s : Str) :
    spacedWords (w ++ ' ' :: s) = w :: spacedWords s := by
  rw [spacedWords, splitOn_word_append hw (by decide)]
  simp [hne, spacedWords]

variable {p : Char → Bool}

theorem dropWhile_of_head (h : w.head?.all (!p ·)) :
    w.dropWhile p = w := by
  cases w with
  | nil => rfl
  | cons c w =>
    have hc : p c = false := by simpa using h
    rw [dropWhile_cons_of_neg (by simp [hc])]

theorem trimMatches_of_all (h : w.all (!p ·)) :
    trimMatches p w = w := by
  have hall : ∀ c ∈ w, p c = false := by simpa using h
  have hhead : ∀ v : Str, (∀ c ∈ v, c ∈ w) → v.dropWhile p = v := by
    intro v hv
    cases v with
    | nil => rfl
    | cons c v => simp [hall c (hv c mem_cons_self)]
  rw [trimMatches, hhead w (fun _ h => h), hhead w.reverse (fun _ h => mem_reverse.mp h),
    reverse_reverse]

theorem trimEndMatches_word (h : w.all (!p ·)) (hne : w ≠ [])
    (s : Str) : trimEndMatches p (s ++ w) = s ++ w := by
  have hhead : (s ++ w).reverse.head?.all (!p ·) := by
    rw [head?_reverse, getLast?_append_of_ne_nil _ hne]
    cases hlast : w.getLast? with
    | none => rfl
    | some c => exact List.all_eq_true.mp h c (mem_of_getLast? hlast)
  rw [trimEndMatches, dropWhile_of_head hhead, reverse_reverse]

theorem trim_of_all (h : w.all (!isWhitespace ·)) : trim w = w :=
  trimMatches_of_all h

theorem trim_word_append (hw : w.all (!isWhitespace ·)) (hne : w ≠ []) (s : Str) :
    trim (w ++ s) = w ++ trimEnd s := by
  have hhead : (w ++ s).head?.all (!isWhitespace ·) := by
    cases w with
    | nil => exact absurd rfl hne
    | cons c w => exact (Bool.and_eq_true_iff.mp hw).1
  rw [trim, trimStart, dropWhile_of_head hhead, trimEnd, reverse_append, dropWhile_append]
  split
  next hall =>
    have hnil : trimEnd s = [] := by simpa [trimEnd] using hall
    rw [hnil, dropWhile_of_head, reverse_reverse, List.append_nil]
    rw [head?_reverse]
    cases hlast : w.getLast? with
    | none => rfl
    | some c => exact List.all_eq_true.mp hw c (mem_of_getLast? hlast)
  next => rw [reverse_append, reverse_reverse, trimEnd]

variable {a : Str}

theorem trim_skip (ha : a.all isWhitespace) (s : Str) : trim (a ++ s) = trim s := by
  rw [trim, trimStart, dropWhile_append_of_pos (List.all_eq_true.mp ha)]
  rfl

theorem trimEnd_start (s : Str) : trimEnd s <+: s := by
  have hsuffix := dropWhile_suffix isWhitespace (l := s.reverse)
  rw [trimEnd, ← reverse_suffix, reverse_reverse]
  exact hsuffix

theorem head_all_of_start {b : Str} (h : a <+: b) (hb : b.head?.all p) :
    a.head?.all p := by
  obtain ⟨c, rfl⟩ := h
  cases a with
  | nil => rfl
  | cons d a => exact hb

end Words

theorem all_of_identCont {p : Char → Bool} (hw : w.all identCont)
    (hp : ∀ c, p c → identCont c = false) : w.all (!p ·) := by
  refine List.all_eq_true.mpr fun c hc => ?_
  have hcont := List.all_eq_true.mp hw c hc
  cases h : p c with
  | false => rfl
  | true => simp [hp c h] at hcont

end HeliosProxy.Text
