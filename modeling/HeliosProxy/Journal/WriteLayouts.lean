import HeliosProxy.Journal.Classify
import HeliosProxy.Text.Gaps

/-!
# Writing statements in every layout

PostgreSQL reads the same statement however its tokens are set apart.  This file follows
the texts of writing statements through `classify`: which part of a text the splitting
keeps together, what stands at its front, and which kind that makes it.  Where the
splitting finds no second statement in the text, the layouts that are journaled are
described exactly.
-/

namespace HeliosProxy.Journal

open Text List

/-! ## What the splitting keeps together -/

/-- In front of `y` the splitting passes over `w` without ending a statement. -/
def Passes (w y : Str) : Prop :=
  ∀ fuel prev piece, (w ++ y).length < fuel → ∃ fuel' prev', y.length < fuel' ∧
    splitPieces fuel prev piece (w ++ y) = splitPieces fuel' prev' (piece ++ w) y

theorem passes_nil (y : Str) : Passes [] y := by
  intro fuel prev piece hfuel
  exact ⟨fuel, prev, hfuel, by simp⟩

variable {a : Str}

theorem Passes.append {b y : Str} (ha : Passes a (b ++ y)) (hb : Passes b y) :
    Passes (a ++ b) y := by
  intro fuel prev piece hfuel
  rw [append_assoc] at hfuel ⊢
  obtain ⟨fuel₁, prev₁, hfuel₁, hsplit₁⟩ := ha fuel prev piece hfuel
  obtain ⟨fuel₂, prev₂, hfuel₂, hsplit₂⟩ := hb fuel₁ prev₁ (piece ++ a) hfuel₁
  exact ⟨fuel₂, prev₂, hfuel₂, by rw [hsplit₁, hsplit₂, append_assoc]⟩

variable {c : Char} {s : Str}

theorem passes_of_skipLength {y : Str} (hc : c ≠ ';')
    (h : ∀ prev, skipLength prev (c :: s ++ y) = (c :: s).length) : Passes (c :: s) y := by
  intro fuel prev piece hfuel
  obtain ⟨fuel, rfl⟩ := Nat.exists_eq_succ_of_ne_zero (ne_zero_of_lt hfuel)
  refine ⟨fuel, (c :: s).getLast?, ?_, ?_⟩
  · simp only [length_append, length_cons] at hfuel
    omega
  · have hskip := h prev
    rw [cons_append] at hskip
    rw [cons_append, splitPieces, if_neg (by simpa using hc)]
    dsimp only
    rw [hskip, ← cons_append, take_left, drop_left]

variable {w : Str}

theorem passes_free (h : ∀ c ∈ w, c ∉ ";'\"-/$".toList) (y : Str) : Passes w y := by
  induction w with
  | nil => exact passes_nil y
  | cons c w ih =>
    obtain ⟨hc, hw⟩ := forall_mem_cons.1 h
    have hstep : Passes [c] (w ++ y) := by
      refine passes_of_skipLength (fun heq => hc (heq ▸ mem_cons_self)) fun prev => ?_
      exact skipLength_of_free (fun hmem => hc (mem_cons_of_mem _ hmem)) prev (w ++ y)
    exact hstep.append (ih hw)

variable {body : Str}

theorem passes_line (hbody : body.all (!isLineEnd ·))
    (hc : isLineEnd c) (y : Str) : Passes ('-' :: '-' :: (body ++ [c])) y := by
  refine passes_of_skipLength (by decide) fun prev => ?_
  have htake := (@span_line c ('-' :: body) hbody hc y).1
  have htext : '-' :: '-' :: (body ++ [c]) ++ y = '-' :: ('-' :: body ++ c :: y) := by simp
  rw [htext, skipLength, htake]
  simp

variable {x : Str}

theorem passes_block {y : Str} (h : findSub "*/" (x ++ ("*/" ++ y)) = some (x, "*/" ++ y)) :
    Passes ('/' :: '*' :: (x ++ "*/")) y := by
  refine passes_of_skipLength (by decide) fun prev => ?_
  rw [cons_append, cons_append, append_assoc, skipLength, if_neg (by decide),
    if_neg (by simp), if_pos (by rfl), drop_succ_cons, drop_zero, h]
  simp

variable {g : Str}

theorem passes_flatGap (hg : FlatGap g) (y : Str) : Passes g y := by
  induction hg with
  | nil => exact passes_nil y
  | @blank c s hc hs ih =>
    refine (passes_free (w := [c]) ?_ (s ++ y)).append ih
    rintro d hd
    obtain rfl := mem_singleton.1 hd
    simpa using isSpace_all (p := fun c => !";'\"-/$".toList.contains c) rfl hc
  | @line body s c hbody hc hs ih =>
    have h := (passes_line hbody hc (s ++ y)).append ih
    rwa [cons_append, cons_append, append_assoc] at h
  | @block body s hbody hs ih =>
    obtain ⟨x, hfind⟩ := findSub_of_closesFlat hbody
    obtain ⟨rfl, -⟩ := findSub_eq_some hfind
    have hclosed := findSub_append hfind (s ++ y)
    rw [append_assoc] at hclosed
    exact (passes_block hclosed).append ih

theorem splitPieces_first (fuel : Nat) (prev : Option Char) (piece s : Str) :
    ∃ p ps, splitPieces fuel prev piece s = p :: ps ∧ piece <+: p ∧ p <+: piece ++ s := by
  induction fuel generalizing prev piece s with
  | zero => exact ⟨piece, [], rfl, prefix_rfl, prefix_append _ _⟩
  | succ fuel ih =>
    cases s with
    | nil => exact ⟨piece, [], rfl, prefix_rfl, prefix_append _ _⟩
    | cons c s =>
      rw [splitPieces]
      split
      · exact ⟨piece, _, rfl, prefix_rfl, prefix_append _ _⟩
      · obtain ⟨p, ps, hsplit, hpiece, hp⟩ :=
          ih ((c :: s).take (skipLength prev (c :: s))).getLast?
            (piece ++ (c :: s).take (skipLength prev (c :: s)))
              ((c :: s).drop (skipLength prev (c :: s)))
        refine ⟨p, ps, hsplit, (prefix_append _ _).trans hpiece, ?_⟩
        rwa [append_assoc, take_append_drop] at hp

theorem splitPieces_rest {fuel : Nat} {prev : Option Char} {piece s p : Str} {ps : List Str}
    (hfuel : s.length < fuel) (h : splitPieces fuel prev piece s = p :: ps) :
    piece ++ s = p ∨ ∃ t fuel' prev', piece ++ s = p ++ ';' :: t ∧ t.length < fuel' ∧
      ps = splitPieces fuel' prev' [] t := by
  induction fuel generalizing prev piece s with
  | zero => cases hfuel
  | succ fuel ih =>
    cases s with
    | nil =>
      cases h
      exact .inl (List.append_nil _)
    | cons c s =>
      rw [splitPieces] at h
      split at h
      next hsemi =>
        cases h
        rw [beq_iff_eq.1 hsemi]
        exact .inr ⟨s, fuel, _, rfl, Nat.lt_of_succ_lt_succ hfuel, rfl⟩
      next =>
        have hpos := skipLength_pos prev c s
        have hshort : ((c :: s).drop (skipLength prev (c :: s))).length < fuel := by
          rw [length_drop]
          rw [length_cons] at hfuel ⊢
          omega
        have hrest := ih hshort h
        rwa [append_assoc, take_append_drop] at hrest

/-- Every other character of a text stands in one of its pieces. -/
theorem exists_mem_splitPieces {fuel : Nat} {prev : Option Char} {piece s : Str}
    (hfuel : s.length < fuel) (hc : c ∈ piece ++ s) (hsemi : c ≠ ';') :
    ∃ p ∈ splitPieces fuel prev piece s, c ∈ p := by
  induction fuel generalizing prev piece s with
  | zero => cases hfuel
  | succ fuel ih =>
    cases s with
    | nil => exact ⟨piece, mem_cons_self, by simpa using hc⟩
    | cons d s =>
      rw [splitPieces]
      split
      next hd =>
        rcases mem_append.1 hc with hc | hc
        · exact ⟨piece, mem_cons_self, hc⟩
        · have hs : c ∈ s := (mem_cons.1 hc).resolve_left (beq_iff_eq.1 hd ▸ hsemi)
          obtain ⟨p, hp, hcp⟩ := @ih (some d) [] s (Nat.lt_of_succ_lt_succ hfuel) hs
          exact ⟨p, mem_cons_of_mem _ hp, hcp⟩
      next =>
        have hpos := skipLength_pos prev d s
        refine ih ?_ ?_
        · rw [length_drop]
          rw [length_cons] at hfuel ⊢
          omega
        · rwa [append_assoc, take_append_drop]

/-- The first part of a text, up to the first semicolon that the splitting sees. -/
def firstPart (s : Str) : Str := (splitPieces (s.length + 1) none [] s).head?.getD []

/-- The splitting finds no other statement in a text. -/
def IsOnePart (s : Str) : Prop := ∀ p ∈ (splitPieces (s.length + 1) none [] s).tail, trim p = []

theorem trim_ne_nil {p : Str} (hc : c ∈ p) (hspace : isWhitespace c = false) : trim p ≠ [] := by
  intro hnil
  have hend : (trimStart p).reverse.dropWhile isWhitespace = [] := by
    simpa [trim, trimEnd] using hnil
  rw [dropWhile_eq_nil_iff] at hend
  obtain ⟨a, b, hab, ha, hb⟩ : ∃ a b, p = a ++ b ∧ (∀ d ∈ a, isWhitespace d) ∧ trimStart p = b :=
    ⟨p.takeWhile isWhitespace, _, takeWhile_append_dropWhile.symm,
      fun d hd => mem_takeWhile_imp hd, rfl⟩
  rw [hab, mem_append] at hc
  rcases hc with hc | hc
  · rw [ha c hc] at hspace
    cases hspace
  · rw [hend c (by simpa [hb] using hc)] at hspace
    cases hspace

/-- The first part of a text that is one part reaches what is neither white space nor a
semicolon. -/
theorem IsOnePart.reaches {x : Str} (hone : IsOnePart s) (hx : x <+: s)
    (hlast : x.getLast?.all (fun c => !isWhitespace c && c != ';')) : x <+: firstPart s := by
  obtain ⟨p, ps, hsplit, -, hp⟩ := splitPieces_first (s.length + 1) none [] s
  have hfirst : firstPart s = p := by rw [firstPart, hsplit]; rfl
  rw [hfirst]
  rcases prefix_or_prefix_of_prefix hx hp with hle | ⟨y, rfl⟩
  · exact hle
  cases hy : y.getLast? with
  | none =>
    rw [getLast?_eq_none_iff.1 hy, List.append_nil]
  | some e =>
    obtain ⟨y', rfl⟩ := getLast?_eq_some_iff.1 hy
    rw [← append_assoc, getLast?_concat, Option.all_some, Bool.and_eq_true, bne_iff_ne] at hlast
    obtain ⟨z, hz⟩ := hx
    have hsplit' := splitPieces_rest (Nat.lt_succ_self _) hsplit
    rcases hsplit' with hwhole | ⟨t, fuel', prev', htext, hfuel, rfl⟩
    · rw [nil_append] at hwhole
      rw [← hz] at hwhole
      simp at hwhole
    · rw [nil_append, ← hz, append_assoc] at htext
      have hmem : e ∈ ';' :: t := by
        rw [← append_cancel_left htext]
        simp
      have het : e ∈ [] ++ t := (mem_cons.1 hmem).resolve_left hlast.2
      obtain ⟨q, hq, heq⟩ := @exists_mem_splitPieces e fuel' prev' [] t hfuel het hlast.2
      have hnil := hone q (by rw [hsplit]; exact hq)
      exact absurd hnil (trim_ne_nil heq (by simpa using hlast.1))

/-! ## The strongest part -/

theorem isJournaled_strongest {a : StmtKind} (b : StmtKind) (ha : a.isJournaled) :
    (StmtKind.strongest a b).isJournaled := by
  cases a <;> cases b <;> first | rfl | cases ha

variable {U : UnicodeTables}

theorem isJournaled_foldl {parts : List Str} {kind : StmtKind}
    (h : kind.isJournaled) :
    (parts.foldl (fun k p => StmtKind.strongest k (classifySingle U p)) kind).isJournaled := by
  induction parts generalizing kind with
  | nil => exact h
  | cons p parts ih => exact ih (isJournaled_strongest _ h)

theorem splitStatements_cons {sql : Str} (hne : trim (firstPart sql) ≠ []) :
    splitStatements sql = trim (firstPart sql) ::
      ((splitPieces (sql.length + 1) none [] sql).tail.map trim).filter (!·.isEmpty) := by
  obtain ⟨p, ps, hsplit, -⟩ := splitPieces_first (sql.length + 1) none [] sql
  rw [firstPart, hsplit] at hne ⊢
  have hkeep : (!(trim p).isEmpty) := by simpa using hne
  rw [splitStatements, hsplit]
  simp only [map_cons, filter_cons, hkeep]
  rfl

theorem isJournaled_classify {sql : Str} (hne : trim (firstPart sql) ≠ [])
    (hfirst : (classifySingle U (trim (firstPart sql))).isJournaled) :
    (classify U sql).1.isJournaled := by
  rw [classify, splitStatements_cons hne]
  generalize ((splitPieces (sql.length + 1) none [] sql).tail.map trim).filter (!·.isEmpty) = rest
  generalize trim (firstPart sql) = p at hfirst
  cases rest with
  | nil => exact hfirst
  | cons q rest =>
    have hread : StmtKind.strongest .read (classifySingle U p) = classifySingle U p := by
      generalize classifySingle U p = kind
      cases kind <;> rfl
    have hall : ((p :: q :: rest).foldl
        (fun k p => StmtKind.strongest k (classifySingle U p)) .read).isJournaled := by
      rw [foldl_cons, hread]
      exact isJournaled_foldl hfirst
    dsimp only
    split
    next c hcontrol =>
      rw [hcontrol] at hall
      cases hall
    next => exact hall

theorem classify_onePart {sql : Str} (hone : IsOnePart sql) (hne : trim (firstPart sql) ≠ []) :
    (classify U sql).1 = classifySingle U (trim (firstPart sql)) := by
  have hnone :
    ((splitPieces (sql.length + 1) none [] sql).tail.map trim).filter (!·.isEmpty) = [] := by
    refine filter_eq_nil_iff.2 fun q hq => ?_
    obtain ⟨p, hp, rfl⟩ := List.mem_map.1 hq
    simp [hone p hp]
  rw [classify, splitStatements_cons hne, hnone]

/-! ## The front of the first part -/

theorem isWhitespace_of_isSpace (h : isSpace c) : isWhitespace c :=
  isSpace_all rfl h

theorem trimStart_flatGap (hg : FlatGap g) :
    ∃ g', FlatGap g' ∧ ∀ x : Str, x.head?.all (!isWhitespace ·) →
      trimStart (g ++ x) = g' ++ x := by
  induction hg with
  | nil => exact ⟨[], .nil, fun x hx => dropWhile_of_head hx⟩
  | blank hc hs ih =>
    obtain ⟨g', hg', hx⟩ := ih
    refine ⟨g', hg', fun x hhead => ?_⟩
    rw [cons_append, trimStart, dropWhile_cons, if_pos (isWhitespace_of_isSpace hc)]
    exact hx x hhead
  | line hbody hc hs ih => exact ⟨_, .line hbody hc hs, fun x hhead => dropWhile_of_head rfl⟩
  | block hbody hs ih => exact ⟨_, .block hbody hs, fun x hhead => dropWhile_of_head rfl⟩

theorem trimEnd_append (ha : a.getLast?.all (!isWhitespace ·)) (r : Str) :
    trimEnd (a ++ r) = a ++ trimEnd r := by
  rw [getLast?_eq_head?_reverse] at ha
  rw [trimEnd, reverse_append, dropWhile_append]
  split
  next hnone =>
    rw [dropWhile_of_head ha, reverse_reverse, trimEnd, List.isEmpty_iff.1 hnone]
    exact (List.append_nil a).symm
  next =>
    rw [reverse_append, reverse_reverse]
    rfl

/-- The first part of a text begins with the flat gap and the front `w` that the splitting
keeps together, and so it does without the white space around it. -/
theorem firstPart_front {y : Str} (hg : FlatGap g) (hw : Passes w y) (hne : w ≠ [])
    (hhead : w.head?.all (!isWhitespace ·)) (hlast : w.getLast?.all (!isWhitespace ·)) :
    ∃ g' r, FlatGap g' ∧ r <+: y ∧ firstPart (g ++ (w ++ y)) = g ++ (w ++ r) ∧
      trim (firstPart (g ++ (w ++ y))) = g' ++ (w ++ trimEnd r) := by
  obtain ⟨fuel, prev, -, hsplit⟩ :=
    (passes_flatGap hg (w ++ y)).append hw _ none [] (Nat.lt_succ_self _)
  rw [append_assoc, nil_append] at hsplit
  obtain ⟨p, ps, hfirst, ⟨r, rfl⟩, hfront⟩ := splitPieces_first fuel prev (g ++ w) y
  have hpart : firstPart (g ++ (w ++ y)) = g ++ (w ++ r) := by
    rw [firstPart, hsplit, hfirst, head?_cons, Option.getD_some, append_assoc]
  obtain ⟨g', hg', htrim⟩ := trimStart_flatGap hg
  have hlastg : (g' ++ w).getLast?.all (!isWhitespace ·) := by
    rwa [getLast?_append_of_ne_nil _ hne]
  refine ⟨g', r, hg', (prefix_append_right_inj _).1 hfront, hpart, ?_⟩
  rw [hpart, trim, htrim _ (by rwa [head?_append_of_ne_nil _ hne]), ← append_assoc,
    trimEnd_append hlastg, append_assoc]

/-- Where a comment of the gap in front opens another one, the lexer gives up in it. -/
theorem flatGap_or_lead (hg : Gap g) :
    FlatGap g ∨ leadingRest (trim (firstPart (g ++ x))) ∧ trim (firstPart (g ++ x)) ≠ [] := by
  refine hg.flat_or.imp id ?_
  rintro ⟨g₁, body, g₂, hg₁, hopens, rfl⟩
  obtain ⟨a, b, hfind, hopen⟩ := hopens
  obtain ⟨rfl, t, rfl⟩ := findSub_eq_some hfind
  have hclosed := findSub_append hfind (g₂ ++ x)
  rw [append_assoc, append_assoc] at hclosed
  have hopens : OpensAnother (a ++ "*/") := by
    have hend := findSub_congr (by decide) hfind []
    exact ⟨a, _, hend, hopen⟩
  have hlast : ('/' :: '*' :: (a ++ "*/")).getLast?.all (!isWhitespace ·) := by
    have hmark : '/' :: '*' :: (a ++ "*/") = ('/' :: '*' :: (a ++ ['*'])) ++ ['/'] := by simp
    rw [hmark, getLast?_concat]
    rfl
  have htext : g₁ ++ ("/*" ++ (a ++ ("*/" ++ t)) ++ g₂) ++ x =
      g₁ ++ ('/' :: '*' :: (a ++ "*/") ++ (t ++ (g₂ ++ x))) := by simp
  rw [htext]
  obtain ⟨g', r, hg', -, -, htrim⟩ := firstPart_front hg₁ (passes_block hclosed) (by simp) rfl hlast
  rw [htrim]
  exact ⟨leadingRest_of_opensAnother hg' hopens _, by simp⟩

theorem isJournaled_of_lead {sql : Str} (hlead : leadingRest (trim (firstPart sql)))
    (hne : trim (firstPart sql) ≠ []) : (classify U sql).1.isJournaled := by
  refine isJournaled_classify hne ?_
  rw [classifySingle, if_pos hlead]
  rfl

/-! ## The first word -/

theorem skipNested_of_closesAt {depth : Nat} (h : closesAt depth body)
    (hdepth : 0 < depth) (s : Str) : skipNested depth (body ++ s) = some s := by
  fun_induction closesAt depth body with
  | case1 => cases hdepth
  | case2 depth t ih => exact ih h (Nat.succ_pos _)
  | case3 depth t ih =>
    cases depth with
    | zero =>
      obtain rfl : t = [] := by simpa [closesAt] using h
      rfl
    | succ depth => exact ih h (Nat.succ_pos _)
  | case4 depth c t hopen hclose ih =>
    cases t with
    | nil => cases h
    | cons d t =>
      rw [cons_append, skipNested]
      · exact ih h (Nat.succ_pos _)
      · intro u hc hu
        cases hu
        exact hopen _ hc rfl
      · intro u hc hu
        cases hu
        exact hclose _ hc rfl
  | case5 => cases h

def IsKeyword (k : String) (w : Str) : Prop := eqIgnoreCase w k.toList = true

instance IsKeyword.decidable (k : String) (w : Str) : Decidable (IsKeyword k w) :=
  inferInstanceAs (Decidable (eqIgnoreCase w k.toList = true))

variable {k : String}

theorem IsKeyword.map_toLower (h : IsKeyword k w) :
    w.map Char.toLower = k.toList.map Char.toLower := by
  simpa [IsKeyword, eqIgnoreCase] using h

theorem isAlpha_of_toLower (h : c.toLower.isAlpha) : c.isAlpha := by
  unfold Char.toLower at h
  split at h
  next hupper =>
    have hc : c.isUpper := by simpa [Char.isUpper] using hupper
    simp [Char.isAlpha, hc]
  next => exact h

theorem isWhitespace_of_isAlpha (h : c.isAlpha) : isWhitespace c = false := by
  simp only [Char.isAlpha, Char.isUpper, Char.isLower, Bool.or_eq_true, Bool.and_eq_true,
    decide_eq_true_eq, ge_iff_le, UInt32.le_iff_toNat_le] at h
  have htoNat : c.toNat = c.val.toNat := rfl
  simp only [isWhitespace, htoNat, Bool.or_eq_false_iff, Bool.and_eq_false_iff, beq_eq_false_iff_ne,
    decide_eq_false_iff_not]
  have hA : 'A'.val.toNat = 65 := rfl
  have hZ : 'Z'.val.toNat = 90 := rfl
  have ha : 'a'.val.toNat = 97 := rfl
  have hz : 'z'.val.toNat = 122 := rfl
  omega

theorem isAscii_of_isAlpha (h : c.isAlpha) : isAscii c := by
  simp only [Char.isAlpha, Char.isUpper, Char.isLower, Bool.or_eq_true, Bool.and_eq_true,
    decide_eq_true_eq, ge_iff_le, UInt32.le_iff_toNat_le] at h
  have htoNat : c.toNat = c.val.toNat := rfl
  have hZ : 'Z'.val.toNat = 90 := rfl
  have hz : 'z'.val.toNat = 122 := rfl
  rw [isAscii, decide_eq_true_eq]
  omega

theorem toLower_toUpper (h : c.isAlpha) : c.toUpper.toLower = c.toLower :=
  isAscii_forall (fun c => c.toUpper.toLower = c.toLower) (by decide) (isAscii_of_isAlpha h)

theorem IsKeyword.all_isAlpha (h : IsKeyword k w)
    (hk : (k.toList.map Char.toLower).all Char.isAlpha) : w.all Char.isAlpha := by
  rw [← h.map_toLower, List.all_map] at hk
  refine List.all_eq_true.2 fun c hc => isAlpha_of_toLower ?_
  exact List.all_eq_true.1 hk c hc

theorem IsKeyword.wordEq (h : IsKeyword k w) :
    Journal.wordEq w = Journal.wordEq k.toList := by
  funext kw
  have hlength : w.length = k.toList.length := by
    rw [← length_map, h.map_toLower, length_map]
  rw [Journal.wordEq, Journal.wordEq, hlength, eqIgnoreCase, eqIgnoreCase, h.map_toLower]

def StartsWord (x : Str) : Prop := x.head?.any Char.isAlpha = true

theorem StartsWord.exists (h : StartsWord x) : ∃ c s, x = c :: s ∧ c.isAlpha := by
  cases x with
  | nil => cases h
  | cons c s => exact ⟨c, s, rfl, h⟩

theorem skipLeadingCommentsFuel_flatGap (hg : FlatGap g) (hx : StartsWord x) {fuel : Nat}
    (hfuel : (g ++ x).length < fuel) : skipLeadingCommentsFuel fuel (g ++ x) = x := by
  induction hg generalizing fuel with
  | nil =>
    obtain ⟨fuel, rfl⟩ := Nat.exists_eq_succ_of_ne_zero (ne_zero_of_lt hfuel)
    obtain ⟨c, s, rfl, hc⟩ := hx.exists
    have hspace : isSpace c = false := by
      rw [Bool.eq_false_iff]
      intro hspace
      simpa [hc] using isSpace_all (p := fun c => !c.isAlpha) rfl hspace
    rw [nil_append, skipLeadingCommentsFuel, dropWhile_cons, hspace]
    split
    next heq => cases heq; cases hc
    next heq => cases heq; cases hc
    next => rfl
  | @blank c s hc hs ih =>
    rw [cons_append, length_cons] at hfuel
    have hskip : skipLeadingCommentsFuel fuel (c :: (s ++ x)) =
        skipLeadingCommentsFuel fuel (s ++ x) := by
      cases fuel with
      | zero => cases hfuel
      | succ fuel =>
        rw [skipLeadingCommentsFuel, dropWhile_cons, if_pos hc, skipLeadingCommentsFuel]
    rw [cons_append, hskip]
    exact ih (by omega)
  | @line body s c hbody hc hs ih =>
    obtain ⟨fuel, rfl⟩ := Nat.exists_eq_succ_of_ne_zero (ne_zero_of_lt hfuel)
    have hafter := (span_line hbody hc (s ++ x)).2
    have htext : "--" ++ body ++ c :: s ++ x = '-' :: '-' :: (body ++ c :: (s ++ x)) := by simp
    rw [htext] at hfuel ⊢
    rw [skipLeadingCommentsFuel, dropWhile_cons, if_neg (by decide)]
    simp only [hafter]
    refine ih ?_
    simp only [length_cons, length_append] at hfuel ⊢
    omega
  | @block body s hbody hs ih =>
    obtain ⟨fuel, rfl⟩ := Nat.exists_eq_succ_of_ne_zero (ne_zero_of_lt hfuel)
    have htext : "/*" ++ body ++ s ++ x = '/' :: '*' :: (body ++ (s ++ x)) := by simp
    rw [htext] at hfuel ⊢
    rw [skipLeadingCommentsFuel, dropWhile_cons, if_neg (by decide)]
    simp only [skipNested_of_closesAt (closesAt_of_closesFlat hbody) one_pos]
    refine ih ?_
    simp only [length_cons, length_append] at hfuel ⊢
    omega

theorem statementBody_flatGap (hg : FlatGap g) (hx : StartsWord x) :
    statementBody (g ++ x) = x := by
  have hskip : skipLeadingComments (g ++ x) = x :=
    skipLeadingCommentsFuel_flatGap hg hx (Nat.lt_succ_self _)
  have htrim : trimStart x = x := by
    obtain ⟨c, s, rfl, hc⟩ := hx.exists
    refine dropWhile_of_head ?_
    simp [isWhitespace_of_isAlpha hc]
  rw [statementBody, hskip, statementBodyFuel, if_pos (by rw [htrim])]

theorem isWordChar_of_isAlpha (h : c.isAlpha) : isWordChar c := by
  simp [isWordChar, Char.isAlphanum, h]

theorem firstWord_append {r : Str} (hw : w.all Char.isAlpha)
    (hr : r.head?.all (!isWordChar ·)) : firstWord (w ++ r) = (w, r) := by
  have hword : w.all isWordChar := List.all_eq_true.2 fun c hc =>
    isWordChar_of_isAlpha (List.all_eq_true.1 hw c hc)
  rw [firstWord, (takeWhile_append_of_all hword hr).1, (takeWhile_append_of_all hword hr).2]

theorem startsWord_append (r : Str) (hw : w.all Char.isAlpha) (hne : w ≠ []) :
    StartsWord (w ++ r) := by
  cases w with
  | nil => exact absurd rfl hne
  | cons c w =>
    rw [all_cons, Bool.and_eq_true] at hw
    exact hw.1

def IsDml (w : Str) : Prop := ∃ k ∈ ["INSERT", "UPDATE", "DELETE", "MERGE"], IsKeyword k w

theorem isAlpha_dml : ∀ k ∈ ["INSERT", "UPDATE", "DELETE", "MERGE"],
    (k.toList.map Char.toLower).all Char.isAlpha := by decide

section Single

variable {U : UnicodeTables} {g w r : Str}

/-- What may stand behind a word: white space or a comment. -/
def ApartWord (r : Str) : Prop := r.head?.all (fun c => !isWordChar c && isAscii c) = true

/-- What `classify_single` reads behind a flat gap in front of a keyword. -/
theorem reads_word (hg : FlatGap g) (hw : IsKeyword k w)
    (hk : (k.toList.map Char.toLower).all Char.isAlpha) (hne : w ≠ []) (hr : ApartWord r) :
    statementBody (g ++ (w ++ r)) = w ++ r ∧ firstWordNotAscii (w ++ r) = false ∧
      firstWord (w ++ r) = (w, r) := by
  have halpha := hw.all_isAlpha hk
  have hfirst : firstWord (w ++ r) = (w, r) := by
    refine firstWord_append halpha ?_
    cases r with
    | nil => rfl
    | cons c r => exact (Bool.and_eq_true_iff.1 hr).1
  refine ⟨statementBody_flatGap hg (startsWord_append r halpha hne), ?_, hfirst⟩
  rw [firstWordNotAscii, hfirst]
  cases r with
  | nil => rfl
  | cons c r => simp [(Bool.and_eq_true_iff.1 hr).2]

theorem isJournaled_dml (hg : FlatGap g) (hw : IsDml w) (hne : w ≠ []) (hr : ApartWord r) :
    (classifySingle U (g ++ (w ++ r))).isJournaled := by
  obtain ⟨k, hk, hw⟩ := hw
  obtain ⟨hbody, hascii, hfirst⟩ := reads_word hg hw (isAlpha_dml k hk) hne hr
  cases hlead : leadingRest (g ++ (w ++ r)) with
  | true =>
    rw [classifySingle, if_pos hlead]
    rfl
  | false =>
    rw [classifySingle, hlead, hbody]
    simp only [hascii, hfirst, hw.wordEq]
    simp only [mem_cons, not_mem_nil, or_false] at hk
    rcases hk with rfl | rfl | rfl | rfl <;> rfl

theorem startsWithCi_append (hw : IsKeyword k w) (b : Str) :
    startsWithCi (w ++ b) k.toList := by
  have hlength : w.length = k.toList.length := by
    rw [← length_map, hw.map_toLower, length_map]
  rw [startsWithCi, take_left' hlength]
  exact hw

theorem containsCi_append (hw : IsKeyword k w) (a b : Str) :
    containsCi (a ++ (w ++ b)) k.toList := by
  rw [containsCi, List.any_eq_true]
  exact ⟨w ++ b, mem_tails _ _ |>.2 (suffix_append _ _), startsWithCi_append hw b⟩

theorem IsKeyword.toUpper (hw : IsKeyword k w) (halpha : w.all Char.isAlpha) :
    IsKeyword k (w.flatMap U.toUppercase) := by
  have hascii : w.all isAscii := List.all_eq_true.2 fun c hc =>
    isAscii_of_isAlpha (List.all_eq_true.1 halpha c hc)
  have hupper : w.flatMap U.toUppercase = w.map Char.toUpper := toUpper_ascii U hascii
  have hlower : (w.map Char.toUpper).map Char.toLower = w.map Char.toLower := by
    rw [List.map_map]
    exact map_congr_left fun c hc => toLower_toUpper (List.all_eq_true.1 halpha c hc)
  rw [IsKeyword, hupper, eqIgnoreCase, hlower]
  exact hw

theorem isJournaled_with {v b : Str} (hg : FlatGap g) (hw : IsKeyword "WITH" w)
    (hne : w ≠ []) (hr : ApartWord (a ++ (v ++ b))) (hv : IsDml v) :
    (classifySingle U (g ++ (w ++ (a ++ (v ++ b))))).isJournaled := by
  obtain ⟨hbody, hascii, hfirst⟩ := reads_word hg hw (by decide) hne hr
  obtain ⟨k, hk, hv⟩ := hv
  have hverbs : k.toList ∈ ["INSERT".toList, "UPDATE".toList, "DELETE".toList, "MERGE".toList] :=
    List.mem_map_of_mem hk
  have hplain : containsCi (w ++ (a ++ (v ++ b))) k.toList := by
    rw [← append_assoc]
    exact containsCi_append hv (w ++ a) b
  have hupper : containsCi ((w ++ (a ++ (v ++ b))).flatMap U.toUppercase) k.toList := by
    rw [← append_assoc, flatMap_append, flatMap_append, flatMap_append]
    exact containsCi_append (hv.toUpper (hv.all_isAlpha (isAlpha_dml k hk))) _ _
  have hany : ["INSERT".toList, "UPDATE".toList, "DELETE".toList, "MERGE".toList].any
      (containsCi (if (w ++ (a ++ (v ++ b))).all isAscii then w ++ (a ++ (v ++ b))
        else (w ++ (a ++ (v ++ b))).flatMap U.toUppercase)) := by
    refine List.any_eq_true.2 ⟨k.toList, hverbs, ?_⟩
    split
    · exact hplain
    · exact hupper
  cases hlead : leadingRest (g ++ (w ++ (a ++ (v ++ b)))) with
  | true =>
    rw [classifySingle, if_pos hlead]
    rfl
  | false =>
    rw [classifySingle, hlead, hbody]
    simp only [hascii, hfirst, hw.wordEq, hany]
    rfl

/-- `COPY` is told by a `FROM` behind a space, in front of one of three characters. -/
def holdsFrom (s : Str) : Bool :=
  containsCi s " FROM " || containsCi s " FROM\n" || containsCi s " FROM\t"

def copyKind (s : Str) : StmtKind := if holdsFrom s then .copy else .read

theorem classifySingle_copy (hg : FlatGap g) (hw : IsKeyword "COPY" w) (hne : w ≠ [])
    (hr : ApartWord r) (hlead : leadingRest (g ++ (w ++ r)) = false) :
    classifySingle U (g ++ (w ++ r)) = copyKind (w ++ r) := by
  obtain ⟨hbody, hascii, hfirst⟩ := reads_word hg hw (by decide) hne hr
  rw [classifySingle, hlead, hbody]
  simp only [hascii, hfirst, hw.wordEq]
  rfl

theorem classifySingle_explain (hg : FlatGap g) (hw : IsKeyword "EXPLAIN" w) (hne : w ≠ [])
    (hr : ApartWord r) (hlead : leadingRest (g ++ (w ++ r)) = false) :
    classifySingle U (g ++ (w ++ r)) = .read := by
  obtain ⟨hbody, hascii, hfirst⟩ := reads_word hg hw (by decide) hne hr
  rw [classifySingle, hlead, hbody]
  simp only [hascii, hfirst, hw.wordEq]
  rfl

end Single

/-! ## Names -/

def quotesDoubled : Str → Bool
  | '"' :: '"' :: s => quotesDoubled s
  | '"' :: _ => false
  | _ :: s => quotesDoubled s
  | [] => true

inductive NameToken : Str → Prop
  | plain {c : Char} {s : Str} (hc : identStart c = true) (hs : s.all identCont = true) :
      NameToken (c :: s)
  | quoted {s : Str} (hs : quotesDoubled s = true) : NameToken ('"' :: (s ++ ['"']))
  | qualified {a b : Str} (ha : NameToken a) (hb : NameToken b) : NameToken (a ++ '.' :: b)

/-! ## Statements -/

def laid (ts : List (Str × Str)) : Str := ts.flatMap fun t => t.1 ++ t.2

/-- A layout of the tokens `ws`: gaps between them, and maybe one in front. -/
structure IsLayout (ts : List (Str × Str)) (ws : List Str) : Prop where
  tokens : ts.map Prod.snd = ws
  gaps : ∀ t ∈ ts, Gap t.1
  apart : ∀ t ∈ ts.tail, t.1 ≠ []

/-- `INSERT INTO t`, `UPDATE t SET`, `DELETE FROM t` and `MERGE INTO t`. -/
inductive DmlTokens : List Str → Prop
  | insert {v i t : Str} (hv : IsKeyword "INSERT" v) (hi : IsKeyword "INTO" i) (ht : NameToken t) :
      DmlTokens [v, i, t]
  | update {v t s : Str} (hv : IsKeyword "UPDATE" v) (ht : NameToken t) (hs : IsKeyword "SET" s) :
      DmlTokens [v, t, s]
  | delete {v f t : Str} (hv : IsKeyword "DELETE" v) (hf : IsKeyword "FROM" f) (ht : NameToken t) :
      DmlTokens [v, f, t]
  | merge {v i t : Str} (hv : IsKeyword "MERGE" v) (hi : IsKeyword "INTO" i) (ht : NameToken t) :
      DmlTokens [v, i, t]

inductive WriteTokens : List Str → Prop
  | dml {ws : List Str} (hws : DmlTokens ws) : WriteTokens ws
  /-- What the data comes from is no white space and no semicolon. -/
  | copy {v t f : Str} {d : Char} {src : Str} (hv : IsKeyword "COPY" v) (ht : NameToken t)
      (hf : IsKeyword "FROM" f) (hd : isWhitespace d = false) (hsemi : d ≠ ';') :
      WriteTokens [v, t, f, d :: src]
  | withDml {v c a : Str} {ws : List Str} (hv : IsKeyword "WITH" v) (hc : NameToken c)
      (ha : IsKeyword "AS" a) (hws : DmlTokens ws) : WriteTokens (v :: c :: a :: ['('] :: ws)
  | explain {e a : Str} {ws : List Str} (he : IsKeyword "EXPLAIN" e) (ha : IsKeyword "ANALYZE" a)
      (hws : WriteTokens ws) : WriteTokens (e :: a :: ws)

/-- The layouts that are read: the lexer gives up in the comments in front; or the verb
comes first; or `WITH` does, and the first part of the text reaches the verb behind it; or
`COPY` does, and behind the gap in front the first part holds the `FROM` looked for. -/
inductive Recognised (rest : Str) : List (Str × Str) → Prop
  | lead {ts : List (Str × Str)} (h : leadingRest (trim (firstPart (laid ts ++ rest))) = true) :
      Recognised rest ts
  | dml {g w : Str} {ts : List (Str × Str)} (hw : IsDml w) : Recognised rest ((g, w) :: ts)
  | withDml {g w : Str} {ts : List (Str × Str)} (hw : IsKeyword "WITH" w)
      (h : laid ((g, w) :: ts.take 4) <+: firstPart (laid ((g, w) :: ts) ++ rest)) :
      Recognised rest ((g, w) :: ts)
  | copy {g w : Str} {ts : List (Str × Str)} (hw : IsKeyword "COPY" w)
      (h : holdsFrom (trimEnd ((firstPart (laid ((g, w) :: ts) ++ rest)).drop g.length)) = true) :
      Recognised rest ((g, w) :: ts)

theorem passes_alpha (hw : w.all Char.isAlpha) (y : Str) : Passes w y := by
  refine passes_free (fun c hc hmem => ?_) y
  have halpha := List.all_eq_true.1 hw c hc
  simp only [String.reduceToList, mem_cons, not_mem_nil, or_false] at hmem
  rcases hmem with rfl | rfl | rfl | rfl | rfl | rfl <;> cases halpha

theorem head_gap (hg : Gap g) {p : Char → Bool}
    (hspace : [' ', '\t', '\n', '\r', '\x0b', '\x0c'].all p)
    (hline : p '-') (hblock : p '/') : g.head?.all p := by
  cases hg with
  | nil => rfl
  | blank hc hs => exact isSpace_all hspace hc
  | line hbody hc hs => exact hline
  | block hbody hs => exact hblock

theorem IsKeyword.ne_nil (h : IsKeyword k w) (hk : k.toList ≠ []) : w ≠ [] := by
  rintro rfl
  have hmap := h.map_toLower
  rw [map_nil, eq_comm, map_eq_nil_iff] at hmap
  exact hk hmap

variable {ws : List Str}

theorem DmlTokens.verb (h : DmlTokens ws) : ∃ v ws', ws = v :: ws' ∧ ws' ≠ [] ∧ IsDml v := by
  cases h with
  | insert hv | update hv | delete hv | merge hv => exact ⟨_, _, rfl, by simp, _, by simp, hv⟩

theorem IsDml.ne_nil (h : IsDml w) : w ≠ [] := by
  obtain ⟨k, hk, hw⟩ := h
  have hne : ∀ k ∈ ["INSERT", "UPDATE", "DELETE", "MERGE"], k.toList ≠ [] := by decide
  exact hw.ne_nil (hne k hk)

theorem IsDml.all_isAlpha (h : IsDml w) : w.all Char.isAlpha := by
  obtain ⟨k, hk, hw⟩ := h
  exact hw.all_isAlpha (isAlpha_dml k hk)

theorem ends_of_alpha {p : Char → Bool} (hp : ∀ c, c.isAlpha → p c) (hw : w.all Char.isAlpha) :
    w.head?.all p ∧ w.getLast?.all p := by
  have hall : ∀ c ∈ w, p c := fun c hc => hp c (List.all_eq_true.1 hw c hc)
  constructor
  · cases w with
    | nil => rfl
    | cons c w => exact hall c mem_cons_self
  · cases h : w.getLast? with
    | none => rfl
    | some c => exact hall c (mem_of_getLast? h)

section Main

variable {U : UnicodeTables} {ts : List (Str × Str)} {rest : Str}

theorem map_snd_cons (h : ts.map Prod.snd = w :: ws) :
    ∃ g ts', ts = (g, w) :: ts' ∧ ts'.map Prod.snd = ws := by
  obtain ⟨⟨g, w'⟩, ts', rfl, rfl, hws⟩ := map_eq_cons_iff.1 h
  exact ⟨g, ts', rfl, hws⟩

/-- The text of a layout: the gap in front, the first word, and what stands apart from it. -/
theorem IsLayout.front (h : IsLayout ts (w :: ws)) (hws : ws ≠ []) (rest : Str) :
    ∃ g ts', ts = (g, w) :: ts' ∧ Gap g ∧ ts'.map Prod.snd = ws ∧ ApartWord (laid ts' ++ rest) := by
  obtain ⟨g, ts', rfl, htokens⟩ := map_snd_cons h.tokens
  refine ⟨g, ts', rfl, h.gaps _ mem_cons_self, htokens, ?_⟩
  cases ts' with
  | nil => exact absurd htokens.symm hws
  | cons t ts' =>
    have htext : laid (t :: ts') ++ rest = t.1 ++ (t.2 ++ (laid ts' ++ rest)) := by simp [laid]
    rw [ApartWord, htext, head?_append_of_ne_nil _ (h.apart t mem_cons_self)]
    exact head_gap (h.gaps t (mem_cons_of_mem _ mem_cons_self)) rfl rfl rfl

theorem laid_cons (g w : Str) (ts : List (Str × Str)) (rest : Str) :
    laid ((g, w) :: ts) ++ rest = g ++ (w ++ (laid ts ++ rest)) := by
  simp [laid]

theorem ApartWord.of_prefix {r y : Str} (hy : ApartWord y) (h : r <+: y) : ApartWord r :=
  head_all_of_start h hy

theorem kept_of_alpha (c : Char) (hc : c.isAlpha) : (!isWhitespace c) := by
  simp [isWhitespace_of_isAlpha hc]

/-- The first part of a text in front of which the gap is flat. -/
theorem firstPart_word {y : Str} (hg : FlatGap g) (hw : w.all Char.isAlpha) (hne : w ≠ [])
    (hy : ApartWord y) :
    ∃ g' r, FlatGap g' ∧ ApartWord (trimEnd r) ∧ firstPart (g ++ (w ++ y)) = g ++ (w ++ r) ∧
      trim (firstPart (g ++ (w ++ y))) = g' ++ (w ++ trimEnd r) := by
  obtain ⟨hhead, hlast⟩ := ends_of_alpha kept_of_alpha hw
  obtain ⟨g', r, hg', hr, hpart, htrim⟩ := firstPart_front hg (passes_alpha hw y) hne hhead hlast
  exact ⟨g', r, hg', hy.of_prefix ((trimEnd_start r).trans hr), hpart, htrim⟩

theorem isJournaled_verb {v : Str} (hlayout : IsLayout ts (v :: ws)) (hne : ws ≠ [])
    (hv : IsDml v) : (classify U (laid ts ++ rest)).1.isJournaled := by
  obtain ⟨g, ts', rfl, hg, -, hapart⟩ := hlayout.front hne rest
  rw [laid_cons]
  rcases flatGap_or_lead hg with hflat | ⟨hlead, hpart⟩
  · obtain ⟨g', r, hg', hr, -, htrim⟩ := firstPart_word hflat hv.all_isAlpha hv.ne_nil hapart
    refine isJournaled_classify (by rw [htrim]; simp [hv.ne_nil]) ?_
    rw [htrim]
    exact isJournaled_dml hg' hv hv.ne_nil hr
  · exact isJournaled_of_lead hlead hpart

theorem isJournaled_withTokens {v c a : Str} {ws : List Str} {g : Str}
    (hlayout : IsLayout ((g, v) :: ts) (v :: c :: a :: ['('] :: ws)) (hv : IsKeyword "WITH" v)
    (hws : DmlTokens ws)
    (hreach : laid ((g, v) :: ts.take 4) <+: firstPart (laid ((g, v) :: ts) ++ rest)) :
    (classify U (laid ((g, v) :: ts) ++ rest)).1.isJournaled := by
  obtain ⟨d, ws', rfl, -, hd⟩ := hws.verb
  obtain ⟨g, ts, heq, hg, htokens, hapart⟩ := hlayout.front (by simp) rest
  cases heq
  obtain ⟨g₁, ts₁, rfl, h₁⟩ := map_snd_cons htokens
  obtain ⟨g₂, ts₂, rfl, h₂⟩ := map_snd_cons h₁
  obtain ⟨g₃, ts₃, rfl, h₃⟩ := map_snd_cons h₂
  obtain ⟨g₄, ts₄, rfl, -⟩ := map_snd_cons h₃
  rw [laid_cons] at hreach ⊢
  have hnil := hv.ne_nil (by decide)
  rcases flatGap_or_lead hg with hflat | ⟨hlead, hpart⟩
  · obtain ⟨g', r, hg', hr, hpart, htrim⟩ :=
      firstPart_word hflat (hv.all_isAlpha (by decide)) hnil hapart
    obtain ⟨b, hb⟩ := hreach
    have hfront : r = laid [(g₁, c), (g₂, a), (g₃, ['('])] ++ g₄ ++ d ++ b := by
      rw [hpart] at hb
      simpa [laid] using hb.symm
    have hlast : (laid [(g₁, c), (g₂, a), (g₃, ['('])] ++ g₄ ++ d).getLast?.all
        (!isWhitespace ·) := by
      rw [getLast?_append_of_ne_nil _ hd.ne_nil]
      exact (ends_of_alpha kept_of_alpha hd.all_isAlpha).2
    have hend := trimEnd_append hlast b
    rw [← hfront, append_assoc] at hend
    refine isJournaled_classify (by rw [htrim]; simp [hnil]) ?_
    rw [htrim, hend]
    rw [hend] at hr
    exact isJournaled_with hg' hv hnil hr hd
  · exact isJournaled_of_lead hlead hpart

/-- In front of a keyword the lexer gives up, or the first part is read from the keyword on. -/
theorem classifySingle_firstPart {y : Str} (kind : Str → StmtKind) (hg : Gap g) (hw : IsKeyword k w)
    (hk : (k.toList.map Char.toLower).all Char.isAlpha) (hne : w ≠ []) (hy : ApartWord y)
    (hread : ∀ {g' r : Str}, FlatGap g' → ApartWord r → leadingRest (g' ++ (w ++ r)) = false →
      classifySingle U (g' ++ (w ++ r)) = kind (w ++ r)) :
    trim (firstPart (g ++ (w ++ y))) ≠ [] ∧
      (leadingRest (trim (firstPart (g ++ (w ++ y)))) = false →
        classifySingle U (trim (firstPart (g ++ (w ++ y)))) =
          kind (trimEnd ((firstPart (g ++ (w ++ y))).drop g.length))) := by
  rcases @flatGap_or_lead (w ++ y) g hg with hflat | ⟨hlead, hpart⟩
  · have halpha := hw.all_isAlpha hk
    obtain ⟨g', r, hg', hr, hpart, htrim⟩ := firstPart_word hflat halpha hne hy
    have hdrop : trimEnd ((firstPart (g ++ (w ++ y))).drop g.length) = w ++ trimEnd r := by
      rw [hpart, drop_left, trimEnd_append (ends_of_alpha kept_of_alpha halpha).2]
    rw [hdrop, htrim]
    exact ⟨by simp [hne], hread hg' hr⟩
  · exact ⟨hpart, fun hnone => by rw [hlead] at hnone; cases hnone⟩

theorem IsKeyword.unique {k' : String} (h : IsKeyword k w) (h' : IsKeyword k' w) :
    k.toList.map Char.toLower = k'.toList.map Char.toLower :=
  h.map_toLower.symm.trans h'.map_toLower

theorem WriteTokens.tail_ne_nil (h : WriteTokens ws) : ∃ v ws', ws = v :: ws' ∧ ws' ≠ [] := by
  cases h with
  | dml hws =>
    obtain ⟨v, ws', rfl, hne, -⟩ := hws.verb
    exact ⟨v, ws', rfl, hne⟩
  | copy | withDml | explain => exact ⟨_, _, rfl, by simp⟩

theorem isJournaled_of_recognised {ws : List Str} (hlayout : IsLayout ts ws) (hws : WriteTokens ws)
    (hread : Recognised rest ts) : (classify U (laid ts ++ rest)).1.isJournaled := by
  cases hread with
  | lead h =>
    refine isJournaled_of_lead h fun hnil => ?_
    rw [hnil] at h
    cases h
  | @dml g w ts hw =>
    obtain ⟨v, ws', rfl, hne⟩ := hws.tail_ne_nil
    obtain ⟨g', ts', heq, -⟩ := hlayout.front hne rest
    cases heq
    exact isJournaled_verb hlayout hne hw
  | @withDml g w ts hw h =>
    cases hws with
    | dml hws =>
      obtain ⟨v, ws', rfl, hne, hv⟩ := hws.verb
      exact isJournaled_verb hlayout hne hv
    | withDml hv hc ha hws =>
      obtain ⟨g', ts', heq, -⟩ := hlayout.front (by simp) rest
      cases heq
      exact isJournaled_withTokens hlayout hv hws h
    | copy hv ht hf =>
      obtain ⟨g', ts', heq, -⟩ := hlayout.front (by simp) rest
      cases heq
      exact absurd (hw.unique hv) (by decide)
    | explain he ha hws =>
      obtain ⟨g', ts', heq, -⟩ := hlayout.front (by simp) rest
      cases heq
      exact absurd (hw.unique he) (by decide)
  | @copy g w ts hw h =>
    obtain ⟨v, ws', rfl, hne⟩ := hws.tail_ne_nil
    obtain ⟨g', ts', heq, hg, -, hapart⟩ := hlayout.front hne rest
    cases heq
    rw [laid_cons] at h ⊢
    have hnil := hw.ne_nil (by decide)
    obtain ⟨hpart, hkind⟩ := classifySingle_firstPart copyKind hg hw (by decide) hnil hapart
      fun hg' hr hlead => classifySingle_copy hg' hw hnil hr hlead
    cases hlead : leadingRest (trim (firstPart (g ++ (w ++ (laid ts ++ rest))))) with
    | true => exact isJournaled_of_lead hlead hpart
    | false =>
      refine isJournaled_classify hpart ?_
      rw [hkind hlead, copyKind, if_pos h]
      rfl

theorem recognised_of_isJournaled {ws : List Str} (hlayout : IsLayout ts ws) (hws : WriteTokens ws)
    (hone : IsOnePart (laid ts ++ rest)) (h : (classify U (laid ts ++ rest)).1.isJournaled) :
    Recognised rest ts := by
  cases hws with
  | dml hws =>
    obtain ⟨v, ws', rfl, hne, hv⟩ := hws.verb
    obtain ⟨g, ts', rfl, -⟩ := hlayout.front hne rest
    exact .dml hv
  | withDml hv hc ha hws =>
    obtain ⟨d, ws', rfl, -, hd⟩ := hws.verb
    obtain ⟨g, ts₀, rfl, -, h₀, -⟩ := hlayout.front (by simp) rest
    obtain ⟨g₁, ts₁, rfl, h₁⟩ := map_snd_cons h₀
    obtain ⟨g₂, ts₂, rfl, h₂⟩ := map_snd_cons h₁
    obtain ⟨g₃, ts₃, rfl, h₃⟩ := map_snd_cons h₂
    obtain ⟨g₄, ts₄, rfl, -⟩ := map_snd_cons h₃
    refine .withDml hv (hone.reaches ⟨laid ts₄ ++ rest, by simp [laid]⟩ ?_)
    have hverb : ∀ x : Str, (x ++ d).getLast?.all (fun c => !isWhitespace c && c != ';') := by
      intro x
      rw [getLast?_append_of_ne_nil _ hd.ne_nil]
      refine (ends_of_alpha (fun c hc => ?_) hd.all_isAlpha).2
      rw [isWhitespace_of_isAlpha hc, Bool.not_false, Bool.true_and, bne_iff_ne]
      rintro rfl
      cases hc
    simpa [laid] using hverb (laid [(g, _), (g₁, _), (g₂, _), (g₃, ['('])] ++ g₄)
  | copy hv ht hf hd hsemi =>
    obtain ⟨g, ts', rfl, hg, -, hapart⟩ := hlayout.front (by simp) rest
    have hnil := hv.ne_nil (by decide)
    obtain ⟨hpart, hkind⟩ := classifySingle_firstPart copyKind hg hv (by decide) hnil hapart
      fun hg' hr hlead => classifySingle_copy hg' hv hnil hr hlead
    rw [← laid_cons] at hpart hkind
    cases hlead : leadingRest (trim (firstPart (laid ((g, _) :: ts') ++ rest))) with
    | true => exact .lead hlead
    | false =>
      rw [classify_onePart hone hpart, hkind hlead, copyKind] at h
      refine .copy hv ?_
      split at h
      next hfrom => exact hfrom
      next => cases h
  | explain he ha hws =>
    obtain ⟨g, ts', rfl, hg, -, hapart⟩ := hlayout.front (by simp) rest
    have hnil := he.ne_nil (by decide)
    obtain ⟨hpart, hkind⟩ := classifySingle_firstPart (fun _ => .read) hg he (by decide) hnil
      hapart fun hg' hr hlead => classifySingle_explain hg' he hnil hr hlead
    rw [← laid_cons] at hpart hkind
    cases hlead : leadingRest (trim (firstPart (laid ((g, _) :: ts') ++ rest))) with
    | true => exact .lead hlead
    | false =>
      rw [classify_onePart hone hpart, hkind hlead] at h
      cases h

/-- Writing statements in the layouts that are read are journaled, whatever their rest; where
the splitting finds no other statement in the text, no others are. -/
theorem isJournaled_recognised {ws : List Str} (hlayout : IsLayout ts ws) (hws : WriteTokens ws) :
    (Recognised rest ts → (classify U (laid ts ++ rest)).1.isJournaled = true) ∧
      (IsOnePart (laid ts ++ rest) → (classify U (laid ts ++ rest)).1.isJournaled = true →
        Recognised rest ts) :=
  ⟨isJournaled_of_recognised hlayout hws, recognised_of_isJournaled hlayout hws⟩

end Main

/-- The tokens `ws` with one space in front of each. -/
def spacedTokens (ws : List Str) : List (Str × Str) := ws.map fun w => ([' '], w)

theorem isLayout_spacedTokens (ws : List Str) : IsLayout (spacedTokens ws) ws where
  tokens := by
    rw [spacedTokens, List.map_map]
    exact List.map_id ws
  gaps := by
    intro t ht
    obtain ⟨w, -, rfl⟩ := List.mem_map.1 ht
    exact .blank rfl .nil
  apart := by
    intro t ht
    obtain ⟨w, -, rfl⟩ := List.mem_map.1 (mem_of_mem_tail ht)
    simp

/-- `COPY /* /* */ */ t FROM STDIN`. -/
def nestedCopy : List (Str × Str) :=
  [([], "COPY"), ("/* /* */ */", "t"), ([' '], "FROM"),
    ([' '], "STDIN")]

theorem isLayout_nestedCopy : IsLayout nestedCopy (nestedCopy.map Prod.snd) where
  tokens := rfl
  gaps := by
    have hblock : Gap "/* /* */ */" := @Gap.block " /* */ */" [] (by decide) .nil
    simp only [nestedCopy, forall_mem_cons, not_mem_nil, false_implies, implies_true, and_true]
    exact ⟨.nil, hblock, .blank rfl .nil, .blank rfl .nil⟩
  apart := by decide

theorem isJournaled_nestedCopy :
    (classify .ascii (laid nestedCopy)).1.isJournaled = true ∧ Recognised [] nestedCopy := by
  have hone : IsOnePart (laid nestedCopy ++ []) := by
    unfold IsOnePart
    decide
  obtain ⟨hfor, hback⟩ := @isJournaled_recognised .ascii nestedCopy [] _ isLayout_nestedCopy
    (.copy rfl (.plain (by decide) (by decide)) rfl (by decide) (by decide))
  have hjournaled := hfor (.copy rfl (by decide))
  exact ⟨hjournaled, hback hone hjournaled⟩

/-- ` EXPLAIN ANALYZE INSERT INTO t VALUES (1)` is taken for a read. -/
theorem not_isJournaled_layouts :
    ¬ ∀ (U : UnicodeTables) (ts : List (Str × Str)) (ws : List Str) (rest : Str), IsLayout ts ws →
      WriteTokens ws → (classify U (laid ts ++ rest)).1.isJournaled = true := by
  intro h
  have hexplain := h .ascii
    (spacedTokens ["EXPLAIN", "ANALYZE", "INSERT", "INTO", "t"]) _
    " VALUES (1)" (isLayout_spacedTokens _)
    (.explain rfl rfl (.dml (.insert rfl rfl (.plain (by decide) (by decide)))))
  exact absurd hexplain (by decide)

end HeliosProxy.Journal
