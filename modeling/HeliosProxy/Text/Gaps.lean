import HeliosProxy.Text.Find
import HeliosProxy.Text.Chars

/-!
# Gaps without comments in comments

Most scanners of the proxy end a block comment at its first closing mark.  They read a
gap as PostgreSQL does while none of its comments opens another one; where one does, the
lexer of the result caches notices it.
-/

namespace HeliosProxy.Text

open List Option

def closesFlat : Str → Bool
  | '*' :: '/' :: s => s.isEmpty
  | '/' :: '*' :: _ => false
  | _ :: s => closesFlat s
  | [] => false

inductive FlatGap : Str → Prop
  | nil : FlatGap []
  | blank {c : Char} {s : Str} (hc : isSpace c = true) (hs : FlatGap s) : FlatGap (c :: s)
  | line {body s : Str} {c : Char} (hbody : body.all (!isLineEnd ·) = true)
      (hc : isLineEnd c = true) (hs : FlatGap s) : FlatGap ("--" ++ body ++ c :: s)
  | block {body s : Str} (hbody : closesFlat body = true) (hs : FlatGap s) :
      FlatGap ("/*" ++ body ++ s)

def OpensAnother (body : Str) : Prop :=
  ∃ x y, findSub "*/" body = some (x, y) ∧ "/*" <:+: x ++ ['*']

variable {n s : Str}

theorem containsSub_iff : containsSub n s ↔ n <:+: s := by
  refine ⟨fun h => ?_, findSub_isSome⟩
  obtain ⟨⟨a, b⟩, hfind⟩ := isSome_iff_exists.1 h
  obtain ⟨rfl, t, rfl⟩ := findSub_eq_some hfind
  exact ⟨a, t, by simp⟩

theorem infix_of_closesAt {depth : Nat} (h : closesAt depth s) (hdepth : 0 < depth) :
    "*/" <:+: s := by
  fun_induction closesAt depth s with
  | case1 => cases hdepth
  | case2 depth s ih =>
    exact (ih h (Nat.succ_pos _)).trans ⟨"/*", [], by simp⟩
  | case3 depth s => exact ⟨[], s, rfl⟩
  | case4 depth c s _ _ ih => exact (ih h (Nat.succ_pos _)).trans (suffix_cons c s).isInfix
  | case5 => cases h

variable {c : Char}

theorem findSub_cons (h : ¬ n <+: c :: s) :
    findSub n (c :: s) = (findSub n s).map fun (before, rest) => (c :: before, rest) := by
  have hnot : ¬ n.isPrefixOf (c :: s) = true := fun hpre => h (isPrefixOf_iff.mp hpre)
  rw [findSub, if_neg hnot]

variable {body : Str}

theorem closesFlat_or_opensAnother (h : closesAt 1 body) :
    closesFlat body ∨ OpensAnother body := by
  fun_induction closesFlat body with
  | case1 s =>
    left
    simpa [closesAt] using h
  | case2 s =>
    right
    have hclose : "*/" <:+: '*' :: s :=
      (infix_of_closesAt (s := s) h (Nat.succ_pos 1)).trans (suffix_cons '*' s).isInfix
    obtain ⟨⟨x, y⟩, hfind⟩ := isSome_iff_exists.1 (findSub_isSome hclose)
    refine ⟨'/' :: x, y, ?_, ?_⟩
    · rw [findSub_cons (by simp), hfind]
      rfl
    · -- what stands before the closing mark is nothing, or starts with the star
      obtain ⟨hs, -⟩ := findSub_eq_some hfind
      cases x with
      | nil => exact ⟨[], [], rfl⟩
      | cons c x =>
        cases hs
        exact ⟨[], x ++ ['*'], rfl⟩
  | case3 c s h1 h2 ih =>
    have hrest : closesAt 1 s := by
      rw [closesAt] at h
      · exact h
      · exact fun _ hc hs => h2 _ hc hs
      · exact fun _ hc hs => h1 _ hc hs
    refine (ih hrest).imp id ?_
    rintro ⟨x, y, hfind, hopen⟩
    refine ⟨c :: x, y, ?_, hopen.trans (suffix_cons c _).isInfix⟩
    rw [findSub_cons, hfind]
    · rfl
    · rintro ⟨t, ht⟩
      cases ht
      exact h1 t rfl rfl
  | case4 => cases h

theorem findSub_of_closesFlat (h : closesFlat body) :
    ∃ x, findSub "*/".toList body = some (x, "*/".toList) := by
  fun_induction closesFlat body with
  | case1 s =>
    obtain rfl := List.isEmpty_iff.1 h
    exact ⟨[], findSub_here (by decide) []⟩
  | case2 => cases h
  | case3 c s h1 h2 ih =>
    obtain ⟨x, hfind⟩ := ih h
    refine ⟨c :: x, ?_⟩
    rw [findSub_cons, hfind]
    · rfl
    · rintro ⟨t, ht⟩
      cases ht
      exact h1 _ rfl rfl
  | case4 => cases h

theorem findSub_append {a b : Str} (h : findSub n s = some (a, b)) (r : Str) :
    findSub n (s ++ r) = some (a, b ++ r) := by
  induction s generalizing a with
  | nil =>
    rw [findSub] at h
    split at h
    next hn =>
      cases h
      obtain rfl := List.isEmpty_iff.1 hn
      cases r <;> rfl
    next => cases h
  | cons c s ih =>
    by_cases hpre : n <+: c :: s
    · rw [findSub, if_pos (isPrefixOf_iff.mpr hpre)] at h
      cases h
      have happend : n <+: c :: (s ++ r) := hpre.trans (prefix_append (c :: s) r)
      rw [cons_append, findSub, if_pos (isPrefixOf_iff.mpr happend)]
    · rw [findSub_cons hpre] at h
      obtain ⟨⟨a', b'⟩, hfind, heq⟩ := map_eq_some_iff.1 h
      cases heq
      have hlate : ¬ n <+: c :: (s ++ r) := by
        intro happend
        obtain ⟨hs, t, ht⟩ := findSub_eq_some hfind
        refine hpre (prefix_of_prefix_length_le happend (prefix_append (c :: s) r) ?_)
        rw [hs, ← ht]
        simp only [length_cons, length_append]
        omega
      rw [cons_append, findSub_cons hlate, ih hfind]
      rfl

theorem findSub_congr {a t : Str} (hn : n ≠ []) (h : findSub n (a ++ (n ++ t)) = some (a, n ++ t))
    (t' : Str) : findSub n (a ++ (n ++ t')) = some (a, n ++ t') := by
  induction a with
  | nil => exact findSub_here hn t'
  | cons c a ih =>
    have hpre : ¬ n <+: c :: (a ++ (n ++ t)) := by
      intro hpre
      rw [cons_append, findSub, if_pos (isPrefixOf_iff.mpr hpre)] at h
      cases h
    have hpre' : ¬ n <+: c :: (a ++ (n ++ t')) := by
      intro hpre'
      have hshort : n <+: c :: (a ++ n) := by
        refine prefix_of_prefix_length_le hpre' ⟨t', by simp⟩ ?_
        simp only [length_cons, length_append]
        omega
      exact hpre (hshort.trans ⟨t, by simp⟩)
    rw [cons_append, findSub_cons hpre] at h
    obtain ⟨⟨a', b⟩, hfind, heq⟩ := map_eq_some_iff.1 h
    cases heq
    rw [cons_append, findSub_cons hpre', ih hfind]
    rfl

variable {g : Str}

theorem Gap.flat_or (h : Gap g) :
    FlatGap g ∨ ∃ g₁ body g₂, FlatGap g₁ ∧ OpensAnother body ∧ g = g₁ ++ ("/*" ++ body ++ g₂) := by
  induction h with
  | nil => exact .inl .nil
  | blank hc hs ih =>
    rcases ih with hflat | ⟨g₁, body, g₂, hflat, hopens, rfl⟩
    · exact .inl (.blank hc hflat)
    · exact .inr ⟨_, body, g₂, .blank hc hflat, hopens, rfl⟩
  | line hbody hc hs ih =>
    rcases ih with hflat | ⟨g₁, body, g₂, hflat, hopens, rfl⟩
    · exact .inl (.line hbody hc hflat)
    · exact .inr ⟨_, body, g₂, .line hbody hc hflat, hopens, by simp⟩
  | @block body s hbody hs ih =>
    rcases closesFlat_or_opensAnother hbody with hclose | hopens
    · rcases ih with hflat | ⟨g₁, body', g₂, hflat, hopens, rfl⟩
      · exact .inl (.block hclose hflat)
      · exact .inr ⟨_, body', g₂, .block hclose hflat, hopens, by simp⟩
    · exact .inr ⟨[], body, s, .nil, hopens, rfl⟩

/-! ## The lexer of the result caches -/

theorem isSpace_of_isLineEnd (h : isLineEnd c) : isSpace c := by
  simp only [isLineEnd, Bool.or_eq_true, beq_iff_eq] at h
  rcases h with rfl | rfl <;> rfl

theorem isSpace_all {p : Char → Bool} (h : [' ', '\t', '\n', '\r', '\x0b', '\x0c'].all p)
    (hc : isSpace c) : p c := by
  simp only [isSpace, Bool.or_eq_true, beq_iff_eq] at hc
  rcases hc with ((((rfl | rfl) | rfl) | rfl) | rfl) | rfl <;> exact List.all_eq_true.1 h _ (by simp)

theorem nextPiece_space (hc : isSpace c) (s : Str) :
    nextPiece c s = (.space (c :: s.takeWhile isSpace), s.dropWhile isSpace) := by
  rw [nextPiece, if_pos hc]

theorem span_line (hbody : body.all (!isLineEnd ·)) (hc : isLineEnd c) (s : Str) :
    (body ++ c :: s).takeWhile (fun c => c != '\n' && c != '\r') = body ∧
      (body ++ c :: s).dropWhile (fun c => c != '\n' && c != '\r') = c :: s := by
  have hstop : ∀ d, (d != '\n' && d != '\r') = !isLineEnd d := fun d => by simp [isLineEnd, bne]
  rw [funext hstop]
  exact takeWhile_append_of_all hbody (by simp [hc])

theorem closesAt_of_closesFlat (h : closesFlat body) : closesAt 1 body := by
  fun_induction closesFlat body with
  | case1 s => simpa [closesAt] using h
  | case2 => cases h
  | case3 c s h1 h2 ih =>
    rw [closesAt]
    · exact ih h
    · exact fun _ hc hs => h2 _ hc hs
    · exact fun _ hc hs => h1 _ hc hs
  | case4 => cases h

/-- The lexer gives up, or reads a comment and goes on with `after`. -/
def RestOrComment (r : Piece × Str) (after : Str) : Prop :=
  (∃ t, r.1 = .rest t) ∨ ∃ t, r = (.comment t, after)

theorem commentPiece_cases (body after : Str) : RestOrComment (commentPiece body after) after := by
  unfold commentPiece
  split
  · exact .inl ⟨_, rfl⟩
  · exact .inr ⟨_, rfl⟩

theorem nextPiece_line (hbody : body.all (!isLineEnd ·)) (hc : isLineEnd c) :
    RestOrComment (nextPiece '-' ('-' :: (body ++ c :: s))) (c :: s) := by
  have hafter := (span_line hbody hc s).2
  rw [nextPiece, if_neg (by decide), if_pos (by rfl)]
  simp only [drop_succ_cons, drop_zero, hafter]
  split
  · exact .inl ⟨_, rfl⟩
  · exact commentPiece_cases _ _

theorem nextPiece_block (s : Str) :
    nextPiece '/' ('*' :: s) =
      match blockComment ('/' :: '*' :: s) with
      | some (body, after) => commentPiece body after
      | none => (.rest ('/' :: '*' :: s), []) := by
  rfl

theorem nextPiece_flat (hbody : closesFlat body) (s : Str) :
    RestOrComment (nextPiece '/' ('*' :: (body ++ s))) s := by
  obtain ⟨x, hfind⟩ := findSub_of_closesFlat hbody
  have hclosed := findSub_append hfind s
  rw [nextPiece_block]
  simp only [blockComment, drop_succ_cons, drop_zero, hclosed]
  split
  next body' after heq =>
    split at heq
    next => cases heq
    next =>
      cases heq
      exact commentPiece_cases _ _
  next => exact .inl ⟨_, rfl⟩

theorem nextPiece_opensAnother (hbody : OpensAnother body) (s : Str) :
    ∃ t, (nextPiece '/' ('*' :: (body ++ s))).1 = .rest t := by
  obtain ⟨x, y, hfind, hopen⟩ := hbody
  have hclosed := findSub_append hfind s
  rw [nextPiece_block]
  simp only [blockComment, drop_succ_cons, drop_zero, hclosed, containsSub_iff.2 hopen]
  exact ⟨_, rfl⟩

/-- Past white space and comments the lexer gives up, whatever fuel it has left. -/
def LeadsToRest (s : Str) : Prop :=
  ∀ fuel u, s.length ≤ fuel → leadOf u (piecesFuel fuel s) = .rest

theorem leadsToRest_of_piece {t : Str} (h : (nextPiece c s).1 = .rest t) :
    LeadsToRest (c :: s) := by
  intro fuel u hfuel
  cases fuel with
  | zero => cases hfuel
  | succ fuel => rw [piecesFuel, h, leadOf]

theorem leadsToRest_of_space (hc : isSpace c)
    (h : LeadsToRest (s.dropWhile isSpace)) : LeadsToRest (c :: s) := by
  intro fuel u hfuel
  cases fuel with
  | zero => cases hfuel
  | succ fuel =>
    have hshort := (dropWhile_sublist isSpace (l := s)).length_le
    rw [length_cons] at hfuel
    rw [piecesFuel, nextPiece_space hc]
    exact h fuel _ (by omega)

theorem leadsToRest_of_comment {after : Str} (hlen : after.length ≤ s.length)
    (hpiece : RestOrComment (nextPiece c s) after) (h : LeadsToRest after) : LeadsToRest (c :: s) := by
  rcases hpiece with ⟨t, ht⟩ | ⟨t, ht⟩
  · exact leadsToRest_of_piece ht
  intro fuel u hfuel
  cases fuel with
  | zero => cases hfuel
  | succ fuel =>
    rw [length_cons] at hfuel
    rw [piecesFuel, ht]
    exact h fuel _ (by omega)

theorem FlatGap.leadsToRest {x : Str} (hg : FlatGap g) (hx : x.head?.all (!isSpace ·))
    (h : LeadsToRest x) :
    LeadsToRest (g ++ x) ∧ LeadsToRest ((g ++ x).dropWhile isSpace) := by
  induction hg with
  | nil =>
    rw [nil_append, dropWhile_of_head hx]
    exact ⟨h, h⟩
  | @blank c s hc hs ih =>
    rw [cons_append, dropWhile_cons, if_pos hc]
    exact ⟨leadsToRest_of_space hc ih.2, ih.2⟩
  | @line body s c hbody hc hs ih =>
    have hlead : LeadsToRest ('-' :: '-' :: (body ++ c :: (s ++ x))) :=
      leadsToRest_of_comment (by simp; omega) (nextPiece_line hbody hc)
        (leadsToRest_of_space (isSpace_of_isLineEnd hc) ih.2)
    have htext : "--" ++ body ++ c :: s ++ x = '-' :: '-' :: (body ++ c :: (s ++ x)) := by simp
    rw [htext]
    exact ⟨hlead, hlead⟩
  | @block body s hbody hs ih =>
    have hlead : LeadsToRest ('/' :: '*' :: (body ++ (s ++ x))) :=
      leadsToRest_of_comment (by simp; omega) (nextPiece_flat hbody _) ih.1
    have htext : "/*" ++ body ++ s ++ x = '/' :: '*' :: (body ++ (s ++ x)) := by simp
    rw [htext]
    exact ⟨hlead, hlead⟩

theorem leadingRest_of_opensAnother (hg : FlatGap g) (hbody : OpensAnother body) (s : Str) :
    leadingRest (g ++ ("/*" ++ body ++ s)) := by
  obtain ⟨t, ht⟩ := nextPiece_opensAnother hbody s
  have hlead : LeadsToRest ("/*" ++ body ++ s) := leadsToRest_of_piece ht
  rw [leadingRest, lead, pieces, (hg.leadsToRest rfl hlead).1 _ _ (Nat.le_refl _)]
  rfl

end HeliosProxy.Text
