import HeliosProxy.Pool.CleanReset
import HeliosProxy.Replay.AllowedCalls
import HeliosProxy.Replay.Recorder

/-!
# What becomes of an interrupted statement

A statement whose backend was lost is sent again by its kind, and by where it was
interrupted.  The kind is read from the text by the classifier, which has its own view of
comments and white space: where it differs from the skipper of the wire protocol, or from
the query inside a `COPY`, a statement that may have run is sent a second time.
-/

namespace HeliosProxy.Replay

open Text Journal Pool List Option

inductive FaultPhase
  | notDelivered
  | outcomeUnknown
deriving DecidableEq

inductive TrAction
  | closeWithError (sqlstate : String)
  | errorAndContinue (sqlstate : String)
  | reexecute
  | replayThenReexecute
deriving DecidableEq

def TrAction.resends : TrAction → Bool
  | .reexecute | .replayThenReexecute => true
  | _ => false

/-- `tr_decide`, with the transaction state in front of the statement. -/
def trDecide (mode : TrMode) (phase : FaultPhase) (inTx txHasWrites txReplayable : Bool) (kind : StmtKind) :
    TrAction :=
  if mode = .none then .closeWithError "57P01"
  else
    let idempotent := kind = .read ∨ kind = .control
    let canReplay := txReplayable &&
      match mode with
      | .select => !txHasWrites
      | .transaction => true
      | .none | .session => false
    match phase with
    | .notDelivered =>
      if !inTx then .reexecute
      else if canReplay then .replayThenReexecute
      else .errorAndContinue "57P01"
    | .outcomeUnknown =>
      if mode = .session then .errorAndContinue "08007"
      else if !inTx then if idempotent then .reexecute else .errorAndContinue "08007"
      else if kind = .commit then .errorAndContinue "08007"
      else if canReplay then .replayThenReexecute
      else .errorAndContinue "08007"

/-! ## What both readers skip -/

def leadsWithKeyword (sql word : Str) : Bool :=
  let b := skipLeadingComments sql
  startsWithCi b word && (b.drop word.length).head?.all fun c => !identCont c

/-- What `skip_leading_comments` skips. -/
def leadGap (sql : Str) : Str := sql.take (sql.length - (skipLeadingComments sql).length)

/-- A gap that the replay scanner passes too: it has no vertical tab but in comments. -/
inductive PlainGap : Str → Prop
  | nil : PlainGap []
  | blank {c : Char} {s : Str} (hc : isAsciiWhitespace c = true) (hs : PlainGap s) : PlainGap (c :: s)
  | line {body s : Str} {c : Char} (hbody : body.all (!isLineEnd ·) = true)
      (hc : isLineEnd c = true) (hs : PlainGap s) : PlainGap ("--" ++ body ++ c :: s)
  | block {body s : Str} (hbody : closesAt 1 body = true) (hs : PlainGap s) :
      PlainGap ("/*" ++ body ++ s)

theorem closesAt_of_skipNested {depth : Nat} {s after : Str} (ho : 0 < depth)
    (hs : skipNested depth s = some after) : ∃ body, closesAt depth body ∧ s = body ++ after := by
  fun_induction skipNested depth s with
  | case1 depth s ih =>
    obtain ⟨body, hc, rfl⟩ := ih (Nat.succ_pos _) hs
    obtain ⟨depth, rfl⟩ := Nat.exists_eq_succ_of_ne_zero (ne_of_gt ho)
    exact ⟨'/' :: '*' :: body, hc, rfl⟩
  | case2 depth s hl =>
    cases hs
    obtain rfl : depth = 1 := by omega
    exact ⟨['*', '/'], rfl, rfl⟩
  | case3 depth s hl ih =>
    obtain ⟨body, hc, rfl⟩ := ih (by omega) hs
    obtain ⟨depth, rfl⟩ := Nat.exists_eq_succ_of_ne_zero (ne_of_gt ho)
    exact ⟨'*' :: '/' :: body, hc, rfl⟩
  | case4 depth c s hop hc ih =>
    obtain ⟨body, hcl, rfl⟩ := ih ho hs
    obtain ⟨depth, rfl⟩ := Nat.exists_eq_succ_of_ne_zero (ne_of_gt ho)
    refine ⟨c :: body, ?_, rfl⟩
    rw [closesAt]
    · exact hcl
    · exact fun t hi his => hop (t ++ after) hi (by rw [his]; rfl)
    · exact fun t his hi => hc (t ++ after) his (by rw [hi]; rfl)
  | case5 => cases hs

theorem gap_append {g h : Str} (hf : Gap g) (hs : Gap h) : Gap (g ++ h) := by
  induction hf with
  | nil => exact hs
  | blank hc _ ih => exact .blank hc ih
  | @line body s c hbody hc _ ih =>
    rw [append_assoc]
    exact .line hbody hc ih
  | @block body s hbody _ ih =>
    rw [append_assoc]
    exact .block hbody ih

theorem gap_of_all {s : Str} (hb : s.all isSpace) : Gap s := by
  induction s with
  | nil => exact .nil
  | cons c s ih =>
    rw [all_cons, Bool.and_eq_true] at hb
    exact .blank hb.1 (ih hb.2)

theorem skipLeadingCommentsFuel_gap (fuel : Nat) (s : Str) :
    skipLeadingCommentsFuel fuel s = [] ∨ ∃ g, Gap g ∧ s = g ++ skipLeadingCommentsFuel fuel s := by
  induction fuel generalizing s with
  | zero => exact .inr ⟨[], .nil, rfl⟩
  | succ fuel ih =>
    have hb : Gap (s.takeWhile isSpace) := gap_of_all all_takeWhile
    have hw := (takeWhile_append_dropWhile (p := isSpace) (l := s)).symm
    rw [skipLeadingCommentsFuel]
    split
    · next rest hf =>
      rw [hf] at hw
      rcases ih ((rest.dropWhile fun c => c != '\n' && c != '\r').drop 1) with he | ⟨g, hg, hs⟩
      · exact .inl he
      · cases hst : rest.dropWhile fun c => c != '\n' && c != '\r' with
        | nil =>
          rw [hst] at hs
          exact .inl (append_eq_nil_iff.mp hs.symm).2
        | cons c after =>
          rw [hst, drop_succ_cons, drop_zero] at hs
          have hsp := (takeWhile_append_dropWhile (p := fun c => c != '\n' && c != '\r') (l := rest)).symm
          rw [hst] at hsp
          refine .inr ⟨_, gap_append hb
            (@Gap.line (rest.takeWhile fun c => c != '\n' && c != '\r') g c ?_ ?_ hg), ?_⟩
          · refine List.all_eq_true.mpr fun d hm => ?_
            have hi := mem_takeWhile_imp hm
            simpa [isLineEnd] using hi
          · have hen := head?_dropWhile_not (fun c => c != '\n' && c != '\r') rest
            rw [hst] at hen
            simpa [isLineEnd, Decidable.or_iff_not_imp_left] using hen
          · rw [drop_succ_cons, drop_zero]
            simp only [append_assoc, cons_append]
            rw [← hs, ← hsp]
            exact hw
    · next rest hf =>
      rw [hf] at hw
      cases hsk : skipNested 1 rest with
      | none => exact .inl rfl
      | some after =>
        obtain ⟨body, hc, rfl⟩ := closesAt_of_skipNested one_pos hsk
        rcases ih after with he | ⟨g, hg, hs⟩
        · exact .inl he
        · refine .inr ⟨_, gap_append hb (.block hc hg), ?_⟩
          simp only [append_assoc]
          rw [← hs]
          exact hw
    · exact .inr ⟨_, hb, hw⟩

/-! ## The scan behind a gap -/

/-- The scanner reads nothing but space up to `after`. -/
inductive SpaceTo (escapes : Bool) : Str → Str → Prop
  | done {s : Str} : SpaceTo escapes s s
  | token {c : Char} {s mid after : Str} (hr : readToken escapes c s = some (.space, mid))
      (hm : SpaceTo escapes mid after) : SpaceTo escapes (c :: s) after

variable {escapes : Bool}

theorem SpaceTo.scanFuel {s after : Str} (hs : SpaceTo escapes s after) {fuel : Nat} (sc : Scan)
    (he : s.length < fuel) :
    ∃ left, after.length < left ∧ scanFuel escapes fuel sc s = scanFuel escapes left sc after := by
  induction hs generalizing fuel with
  | done => exact ⟨fuel, he, rfl⟩
  | @token c s mid after hr _ ih =>
    obtain ⟨fuel, rfl⟩ := Nat.exists_eq_succ_of_ne_zero (ne_zero_of_lt he)
    have hsh := (readToken_suffix hr).length_le
    rw [length_cons] at he
    obtain ⟨left, hf, hsa⟩ := ih (show mid.length < fuel by omega)
    refine ⟨left, hf, ?_⟩
    rw [Replay.scanFuel, hr]
    exact hsa

theorem readToken_space {c : Char} (hb : isAsciiWhitespace c) (s : Str) :
    readToken escapes c s = some (.space, s) := by
  unfold readToken
  rw [if_pos hb]

theorem isAsciiWhitespace_of_isLineEnd {c : Char} (he : isLineEnd c) : isAsciiWhitespace c := by
  rw [isLineEnd, Bool.or_eq_true, beq_iff_eq, beq_iff_eq] at he
  rcases he with rfl | rfl <;> rfl

theorem line_text (body t s : Str) (c : Char) :
    "--" ++ body ++ c :: t ++ s = '-' :: '-' :: (body ++ c :: (t ++ s)) := by
  simp

theorem block_text (body t s : Str) : "/*" ++ body ++ t ++ s = '/' :: '*' :: (body ++ (t ++ s)) := by
  simp

theorem PlainGap.spaceTo {g : Str} (hp : PlainGap g) (s : Str) : SpaceTo escapes (g ++ s) s := by
  induction hp with
  | nil => exact .done
  | blank hc _ ih => exact .token (readToken_space hc _) ih
  | line hbody hc _ ih =>
    rw [line_text]
    exact .token (readToken_line hbody hc) (.token (readToken_space (isAsciiWhitespace_of_isLineEnd hc) _) ih)
  | block hbody _ ih =>
    rw [block_text]
    exact .token (readToken_block hbody _) ih

theorem isSpace_cases {c : Char} (hb : isSpace c) : isAsciiWhitespace c ∨ c = '\x0b' := by
  simp only [isSpace, Bool.or_eq_true, beq_iff_eq] at hb
  rcases hb with ((((rfl | rfl) | rfl) | rfl) | rfl) | rfl
  all_goals first | exact .inl rfl | exact .inr rfl

/-- A gap that is not plain leads the scanner to a vertical tab. -/
theorem spaceTo_tab (escapes : Bool) {g : Str} (hg : Gap g) (s : Str) :
    PlainGap g ∨ ∃ r, SpaceTo escapes (g ++ s) ('\x0b' :: r) ∧ r <:+ g ++ s := by
  induction hg with
  | nil => exact .inl .nil
  | @blank c t hc _ ih =>
    rcases isSpace_cases hc with hascii | rfl
    · rcases ih with hplain | ⟨r, hsp, hsuf⟩
      · exact .inl (.blank hascii hplain)
      · exact .inr ⟨r, .token (readToken_space hascii _) hsp, hsuf.trans (suffix_cons _ _)⟩
    · exact .inr ⟨t ++ s, .done, suffix_cons _ _⟩
  | @line body t c hbody hc _ ih =>
    rcases ih with hplain | ⟨r, hsp, hsuf⟩
    · exact .inl (.line hbody hc hplain)
    · rw [line_text]
      have hend : readToken escapes c (t ++ s) = some (.space, t ++ s) :=
        readToken_space (isAsciiWhitespace_of_isLineEnd hc) _
      refine .inr ⟨r, .token (readToken_line hbody hc) (.token hend hsp), hsuf.trans ?_⟩
      exact ⟨'-' :: '-' :: (body ++ [c]), by simp⟩
  | @block body t hbody _ ih =>
    rcases ih with hplain | ⟨r, hsp, hsuf⟩
    · exact .inl (.block hbody hplain)
    · rw [block_text]
      exact .inr ⟨r, .token (readToken_block hbody _) hsp,
        hsuf.trans ⟨'/' :: '*' :: body, by simp⟩⟩

/-! ## Commits -/

theorem Scan.token_mayCommit {sc : Scan} (hc : sc.mayCommit) (here : Str) (t : Token) :
    (sc.token here t).mayCommit := by
  have hn (word : Str) : (sc.note here word).mayCommit := by
    unfold Scan.note
    split
    · simp only [hc, Bool.true_or]
    · split
      · exact hc
      · simp only [hc, Bool.true_or]
  cases t with
  | space | semicolon => exact hc
  | word w => exact hn w
  | quoted q backslash | dollar | other => exact hn []

theorem scanFuel_mayCommit {fuel : Nat} {sc sc' : Scan} {s : Str} (hc : sc.mayCommit)
    (hs : scanFuel escapes fuel sc s = some sc') : sc'.mayCommit := by
  induction fuel generalizing sc s with
  | zero => cases hs
  | succ fuel ih =>
    cases s with
    | nil =>
      cases hs
      exact hc
    | cons c s =>
      obtain ⟨⟨t, after⟩, -, hr⟩ := bind_eq_some_iff.mp hs
      exact ih (Scan.token_mayCommit hc _ t) hr

def commitWords : List String := ["COMMIT", "END"]

variable {sql w r : Str} {k : String}

theorem scan_commit (hc : k ∈ commitWords) (hk : IsKeyword k w)
    (ha : r.head?.all (!identCont ·)) (hsp : SpaceTo escapes sql (w ++ r)) {sc : Scan}
    (hsc : scan escapes sql = some sc) : sc.mayCommit := by
  obtain ⟨before, hr, rfl⟩ := map_eq_some_iff.mp hsc
  suffices before.mayCommit by rw [this, Bool.true_or]
  obtain ⟨fuel, hf, hsa⟩ := hsp.scanFuel .start (Nat.lt_succ_self sql.length)
  rw [hsa] at hr
  obtain ⟨fuel, rfl⟩ := Nat.exists_eq_succ_of_ne_zero (ne_zero_of_lt hf)
  have hs : ∀ k ∈ commitWords, Spelled k := by decide
  have hl := hk.all_isAlpha (hs k hc).2
  cases w with
  | nil => exact absurd (firm_of_keyword (hs k hc) hk).ne_nil (by simp)
  | cons c w =>
    rw [all_cons, Bool.and_eq_true] at hl
    have hco : w.all identCont := List.all_eq_true.mpr fun d hm => by
      rw [identCont, identStart, List.all_eq_true.mp hl.2 d hm, Bool.true_or, Bool.true_or, Bool.true_or,
        Bool.true_or]
    have hst : identStart c := by rw [identStart, hl.1, Bool.true_or, Bool.true_or]
    have hw : readToken escapes c (w ++ r) = _ := readToken_wholeWord hst hco ha
    rw [cons_append, Replay.scanFuel, hw] at hr
    refine scanFuel_mayCommit ?_ hr
    simp only [commitWords, mem_cons, not_mem_nil, or_false] at hc
    rcases hc with rfl | rfl
    · exact Bool.or_eq_true_iff.mpr (.inl hk)
    · exact Bool.or_eq_true_iff.mpr (.inr hk)

/-! ## No commit behind a vertical tab -/

theorem Scan.note_atStart (sc : Scan) (here word : Str) : (sc.note here word).atStart = false := by
  cases hstart : sc.atStart <;> cases hsecond : sc.second <;> simp [Scan.note, hstart, hsecond]

theorem Scan.token_atStart {sc : Scan} {here : Str} {t : Token} (hs : (sc.token here t).atStart) :
    t = .semicolon ∨ (t = .space ∧ sc.atStart) := by
  cases t with
  | space => exact .inr ⟨rfl, hs⟩
  | semicolon => exact .inl rfl
  | word | quoted | dollar | other => exact absurd hs (by simp [Scan.token, Scan.note_atStart])

/-- Nothing so far commits, and the statement that was begun is no `PREPARE`. -/
structure Quiet (sc : Scan) : Prop where
  commits : sc.mayCommit = false
  ends : sc.endsTx = false
  first : eqIgnoreCase sc.first "PREPARE" = false

theorem not_keyword_of_blank {k : String} (hk : Spelled k) {w : Str}
    (hb : w.head?.all isWhitespace) : eqIgnoreCase w k.toList = false := by
  rw [Bool.eq_false_iff]
  intro hw
  have hfirm := (firm_of_keyword hk hw).head
  cases w with
  | nil => cases hfirm
  | cons c w =>
    rw [head?_cons, any_some] at hfirm
    rw [head?_cons, all_some] at hb
    rw [hb] at hfirm
    cases hfirm

section Quiet

variable {sc : Scan} (hq : Quiet sc)
include hq

theorem Quiet.note (here : Str) {word : Str} (hb : sc.atStart → word.head?.all isWhitespace) :
    Quiet (sc.note here word) := by
  have hother (k : String) (hk : Spelled k) (hs : sc.atStart) : eqIgnoreCase word k.toList = false :=
    not_keyword_of_blank hk (hb hs)
  unfold Scan.note
  split
  · next hs =>
    refine ⟨?_, ?_, hother "PREPARE" (by decide) hs⟩
    · simp only [hq.commits, hother "COMMIT" (by decide) hs, hother "END" (by decide) hs, Bool.or_self]
    · simp only [hq.ends, hother "ROLLBACK" (by decide) hs, hother "ABORT" (by decide) hs, Bool.or_self]
  · split
    · exact hq
    · refine ⟨?_, hq.ends, hq.first⟩
      simp only [hq.commits, hq.first, Bool.false_and, Bool.or_self]

theorem Quiet.token (here : Str) {t : Token}
    (hb : sc.atStart → ∀ w, t = .word w → w.head?.all isWhitespace) : Quiet (sc.token here t) := by
  have hnoted := hq.note here (show _ → ([] : Str).head?.all isWhitespace from fun _ => rfl)
  cases t with
  | space => exact hq
  | semicolon => exact ⟨hq.commits, hq.ends, hq.first⟩
  | word w => exact hq.note here fun hs => hb hs w rfl
  | quoted => exact ⟨hnoted.commits, hnoted.ends, hnoted.first⟩
  | dollar | other => exact hnoted

end Quiet

theorem readToken_text {c : Char} {s after : Str} {t : Token}
    (hr : readToken escapes c s = some (t, after)) :
    (t = .semicolon → c = ';' ∧ after = s) ∧ ∀ w, t = .word w → w.head? = some c := by
  unfold readToken at hr
  split at hr
  · cases hr
    exact ⟨nofun, nofun⟩
  split at hr
  · cases hr
    exact ⟨nofun, nofun⟩
  · obtain ⟨_, -, ⟨⟩⟩ := map_eq_some_iff.mp hr
    exact ⟨nofun, nofun⟩
  · cases hr
    exact ⟨fun _ => ⟨rfl, rfl⟩, nofun⟩
  · cases hr
  split at hr
  · cases hr
    exact ⟨nofun, by rintro _ ⟨⟩; rfl⟩
  split at hr
  · obtain ⟨_, -, ⟨⟩⟩ := map_eq_some_iff.mp hr
    exact ⟨nofun, nofun⟩
  split at hr
  · split at hr
    · obtain ⟨_, -, ⟨⟩⟩ := map_eq_some_iff.mp hr
      exact ⟨nofun, nofun⟩
    · cases hr
      exact ⟨nofun, nofun⟩
  · cases hr
    exact ⟨nofun, nofun⟩

/-- Nothing but white space and semicolons stands behind a semicolon. -/
def SingleTail (s : Str) : Prop := ∀ a b, s = a ++ ';' :: b → b.all tailChar = true

theorem all_tailChar_of_suffix {s t : Str} (hs : s <:+ t) (ha : t.all tailChar) : s.all tailChar :=
  List.all_eq_true.mpr fun c hm => List.all_eq_true.mp ha c (hs.subset hm)

theorem SingleTail.of_suffix {s t : Str} (ht : SingleTail t) (hs : s <:+ t) : SingleTail s := by
  rintro a b rfl
  obtain ⟨x, hw⟩ := hs
  exact ht (x ++ a) b (by rw [append_assoc, hw])

theorem Quiet.scanFuel {fuel : Nat} {sc sc' : Scan} {s : Str} (hq : Quiet sc)
    (ht : sc.atStart → s.all tailChar) (hsingle : SingleTail s)
    (hs : scanFuel escapes fuel sc s = some sc') : Quiet sc' := by
  induction fuel generalizing sc s with
  | zero => cases hs
  | succ fuel ih =>
    cases s with
    | nil =>
      cases hs
      exact hq
    | cons c s =>
      obtain ⟨⟨t, after⟩, hread, hrest⟩ := bind_eq_some_iff.mp hs
      have hsuf : after <:+ c :: s := (readToken_suffix hread).trans (suffix_cons c s)
      obtain ⟨hsemi, hword⟩ := readToken_text hread
      refine ih (hq.token _ fun hstart w hw => ?_) (fun hstart => ?_) (hsingle.of_suffix hsuf) hrest
      · have hends := List.all_eq_true.mp (ht hstart) c mem_cons_self
        rw [hword w hw]
        rw [tailChar, Bool.or_eq_true, beq_iff_eq] at hends
        refine hends.resolve_right ?_
        rintro rfl
        cases hread
        cases hw
      · rcases Scan.token_atStart hstart with hsc | ⟨-, hstart⟩
        · obtain ⟨rfl, rfl⟩ := hsemi hsc
          exact hsingle [] after rfl
        · exact all_tailChar_of_suffix hsuf (ht hstart)

theorem singleTail_of_core (hi : ';' ∉ statementCore sql) : SingleTail sql := by
  intro a b htext
  have hstart : (trimStart sql).head?.all (!isWhitespace ·) := by
    have hstop := head?_dropWhile_not isWhitespace sql
    cases hfirst : sql.dropWhile isWhitespace with
    | nil =>
      rw [trimStart, hfirst]
      rfl
    | cons c s =>
      rw [hfirst] at hstop
      rw [trimStart, hfirst, head?_cons, all_some, hstop]
      rfl
  have hfront : trimStart (trimStart sql) = trimStart sql := dropWhile_idempotent _ _
  have hcore : statementCore (trimStart sql) = statementCore sql := by
    rw [statementCore, trim, hfront]
    rfl
  obtain ⟨tail, hwhole, hends⟩ := statementCore_split hstart
  have hsplit : sql.takeWhile isWhitespace ++ statementCore sql ++ tail = a ++ ';' :: b := by
    rw [append_assoc, ← hcore, ← htext]
    exact (congrArg (_ ++ ·) hwhole.symm).trans takeWhile_append_dropWhile
  have hfree : ';' ∉ sql.takeWhile isWhitespace ++ statementCore sql := by
    rw [mem_append]
    rintro (hblank | hc)
    · exact absurd (mem_takeWhile_imp hblank) (by decide)
    · exact hi hc
  rcases append_eq_append_iff.mp hsplit with ⟨x, -, hrest⟩ | ⟨x, hpre, hrest⟩
  · exact all_tailChar_of_suffix ⟨x ++ [';'], by rw [hrest, append_assoc]; rfl⟩ hends
  · cases x with
    | nil => exact all_tailChar_of_suffix ⟨[';'], hrest⟩ hends
    | cons d x =>
      cases hrest
      exact absurd (hpre ▸ mem_append_right a mem_cons_self) hfree

/-- A vertical tab begins a statement for the scanner, and nothing behind it begins another. -/
theorem scan_quiet {s : Str} (hsp : SpaceTo escapes sql ('\x0b' :: s)) (hsuf : s <:+ sql)
    (hsingle : SingleTail sql) {sc : Scan} (hsc : scan escapes sql = some sc) : sc.mayCommit = false := by
  obtain ⟨before, hran, rfl⟩ := map_eq_some_iff.mp hsc
  obtain ⟨fuel, hfits, hsame⟩ := hsp.scanFuel .start (Nat.lt_succ_self sql.length)
  rw [hsame] at hran
  obtain ⟨fuel, rfl⟩ := Nat.exists_eq_succ_of_ne_zero (ne_zero_of_lt hfits)
  have hq : Quiet (Scan.start.token ('\x0b' :: s) .other) := ⟨rfl, rfl, rfl⟩
  obtain ⟨hcommits, hends, -⟩ := hq.scanFuel (fun hs => by cases hs) (hsingle.of_suffix hsuf) hran
  rw [hcommits, hends]
  rfl

theorem leads_gap (hsp : Spelled k) (hl : leadsWithKeyword sql k.toList) :
    Gap (leadGap sql) ∧ ∃ w r, IsKeyword k w ∧ r.head?.all (!identCont ·) ∧
      sql = leadGap sql ++ (w ++ r) := by
  rw [leadsWithKeyword, Bool.and_eq_true] at hl
  have hw := (take_append_drop k.toList.length (skipLeadingComments sql)).symm
  rcases skipLeadingCommentsFuel_gap (sql.length + 1) sql with he | ⟨g, hg, hs⟩
  · have hf := (firm_of_keyword hsp hl.1).ne_nil
    rw [skipLeadingComments, he] at hf
    exact absurd rfl (take_nil ▸ hf)
  · have hle : leadGap sql = g := by
      have hlen := congrArg List.length hs
      rw [length_append] at hlen
      rw [leadGap, skipLeadingComments, show sql.length - _ = g.length by omega]
      exact (congrArg (List.take g.length) hs).trans take_left
    rw [hle]
    exact ⟨hg, _, _, hl.1, hl.2, hs.trans (congrArg (g ++ ·) hw)⟩

variable {allowsCall : Str → Bool}

theorem boundaries_mayCommit {b : Boundaries} (hb : boundaries sql = some b) :
    ∃ plain, scan false sql = some plain ∧
      (b.mayCommit = plain.mayCommit ∨
        ∃ escaped, scan true sql = some escaped ∧ b.mayCommit = (plain.mayCommit || escaped.mayCommit)) := by
  obtain ⟨plain, hs, hr⟩ := bind_eq_some_iff.mp hb
  refine ⟨plain, hs, ?_⟩
  split at hr
  · cases hr
    exact .inl rfl
  · obtain ⟨escaped, ha, ⟨⟩⟩ := bind_eq_some_iff.mp hr
    exact .inr ⟨escaped, ha, rfl⟩

theorem trClassify_of_boundaries (hc : ∀ b, boundaries sql = some b → b.mayCommit) :
    trClassify allowsCall sql = .commit := by
  unfold trClassify
  cases hb : boundaries sql with
  | none => rfl
  | some b =>
    obtain ⟨head, mayCommit⟩ := b
    obtain rfl : mayCommit := hc _ hb
    rfl

theorem trClassify_of_core
    (hc : (';' ∈ statementCore sql ∧ ∃ k ∈ ["commit", "end"], containsWordCi (statementCore sql) k.toList) ∨
      (';' ∉ statementCore sql ∧ ∃ k ∈ commitWords, startsWithWordCi (statementCore sql) k.toList)) :
    trClassify allowsCall sql = .commit := by
  unfold trClassify
  split
  · rfl
  · rfl
  extract_lets core kw has reads
  rcases hc with ⟨hi, k, hm, hf⟩ | ⟨hi, k, hm, hl⟩
  · have hn : ¬ core.isEmpty := by
      rw [List.isEmpty_iff]
      exact ne_nil_of_mem hi
    rw [if_neg hn, if_pos (contains_iff_mem.mpr hi)]
    refine if_pos (Bool.or_eq_true_iff.mpr (.inl (Bool.or_eq_true_iff.mpr ?_)))
    simp only [mem_cons, not_mem_nil, or_false] at hm
    rcases hm with rfl | rfl
    · exact .inl hf
    · exact .inr hf
  · simp only [commitWords, mem_cons, not_mem_nil, or_false] at hm
    have hn : ¬ core.isEmpty := by
      rw [List.isEmpty_iff]
      intro he
      rw [show statementCore sql = [] from he] at hl
      rcases hm with rfl | rfl <;> cases hl
    rw [if_neg hn, if_neg (mt contains_iff_mem.mp hi)]
    refine if_pos (Bool.or_eq_true_iff.mpr (.inl (Bool.or_eq_true_iff.mpr ?_)))
    rcases hm with rfl | rfl
    · exact .inl hl
    · exact .inr hl

theorem trClassify_comment {head : Str} (hb : boundaries sql = some ⟨head, false⟩)
    (hi : ';' ∉ statementCore sql) {c : Char} {x : Str} (hc : statementCore sql = c :: x)
    (ho : c = '-' ∨ c = '/') : trClassify allowsCall sql = .other := by
  have hot {k : String} (hl : (k.toList.head?.any fun d => d.toLower != '-' && d.toLower != '/')) :
      startsWithWordCi (statementCore sql) k.toList = false := by
    cases hn : k.toList with
    | nil =>
      rw [hn] at hl
      cases hl
    | cons d n =>
      rw [hn, head?_cons, any_some, Bool.and_eq_true, bne_iff_ne, bne_iff_ne] at hl
      rw [startsWithWordCi, hc, startsWithCi_cons_false, Bool.false_and]
      rcases ho with rfl | rfl
      · exact hl.1.symm
      · exact hl.2.symm
  have hno : ¬ (statementCore sql).isEmpty := by rw [hc]; exact Bool.false_ne_true
  unfold trClassify
  rw [hb]
  rw [if_neg hno, if_neg (mt contains_iff_mem.mp hi)]
  simp (disch := decide) only [hot, any_cons, any_nil, Bool.or_false, Bool.false_eq_true, if_false]

/-- The statement is known to be a commit, and is not sent again where it may have run. -/
structure NotResent (allowsCall : Str → Bool) (sql : Str) : Prop where
  kind : trClassify allowsCall sql = .commit
  kept : ∀ mode inTx txHasWrites txReplayable,
    (trDecide mode .outcomeUnknown inTx txHasWrites txReplayable (trClassify allowsCall sql)).resends = false

theorem trDecide_commit (mode : TrMode) (inTx txHasWrites txReplayable : Bool) :
    (trDecide mode .outcomeUnknown inTx txHasWrites txReplayable .commit).resends = false := by
  cases mode <;> cases inTx <;> rfl

/-- The gap in front has no vertical tab outside comments, or it has no comment; or the text has a
semicolon inside, or it does not lex. -/
def SkippedAlike (sql : Str) : Prop :=
  PlainGap (leadGap sql) ∨ trimStart (leadGap sql) = [] ∨ ';' ∈ statementCore sql ∨ boundaries sql = none

/-- A text that leads with a commit is known as one exactly if both readers skip the same in front
of it. -/
theorem leadsWithKeyword_commits (allowsCall : Str → Bool) {sql : Str} {k : String}
    (hcommits : k ∈ commitWords) (hleads : leadsWithKeyword sql k.toList = true) :
    NotResent allowsCall sql ↔ SkippedAlike sql := by
  have hspelled : ∀ k ∈ commitWords, Spelled k ∧ ∃ l ∈ ["commit", "end"], Spelled l ∧
      k.toList.map Char.toLower = l.toList.map Char.toLower := by decide
  obtain ⟨hletters, l, hlower, hletters', hsame⟩ := hspelled k hcommits
  obtain ⟨hgap, w, r, hkeyword, hapart, htext⟩ := leads_gap hletters hleads
  have hapart' : StartsApart r := by
    cases r with
    | nil => rfl
    | cons c r => exact asciiIdent_of_identCont hapart
  obtain ⟨r', hpre, hcore⟩ := statementCore_append (firm_of_keyword hletters hkeyword) (leadGap sql) r
  rw [← htext] at hcore
  constructor
  · intro hkept
    by_contra halike
    simp only [SkippedAlike, not_or] at halike
    obtain ⟨htabbed, hcomment, hinside, hlexes⟩ := halike
    obtain ⟨⟨head, mayCommit⟩, hbounds⟩ := ne_none_iff_exists'.mp hlexes
    have hquiet {escapes : Bool} {sc : Scan} (hscanned : scan escapes sql = some sc) :
        sc.mayCommit = false := by
      obtain ⟨s, hspace, hsuffix⟩ := (spaceTo_tab escapes hgap (w ++ r)).resolve_left htabbed
      rw [← htext] at hspace hsuffix
      exact scan_quiet hspace hsuffix (singleTail_of_core hinside) hscanned
    obtain rfl : mayCommit = false := by
      obtain ⟨first, hscanned, honly | ⟨escaped, hagain, hboth⟩⟩ := boundaries_mayCommit hbounds
      · exact honly.trans (hquiet hscanned)
      · exact hboth.trans (by rw [hquiet hscanned, hquiet hagain, Bool.or_self])
    obtain ⟨c, x, hfront, hopens⟩ := (trimStart_gap hgap).resolve_left hcomment
    rw [hfront] at hcore
    have hkind := hkept.kind
    rw [trClassify_comment hbounds hinside hcore hopens] at hkind
    cases hkind
  · intro halike
    suffices hkind : trClassify allowsCall sql = .commit from
      ⟨hkind, fun mode inTx writes replayable => hkind ▸ trDecide_commit mode inTx writes replayable⟩
    have hword : containsWordCi (statementCore sql) l.toList = true := by
      have hkeyword' : IsKeyword l w := by rwa [IsKeyword, eqIgnoreCase, ← hsame]
      have hfound := containsWordCi_core hletters' hkeyword' (gap_endsApart hgap) hapart'
      rwa [← htext] at hfound
    by_cases hinside : ';' ∈ statementCore sql
    · exact trClassify_of_core (.inl ⟨hinside, l, hlower, hword⟩)
    rcases halike with hplain | hblank | hsemicolon | hunlexed
    · refine trClassify_of_boundaries fun b hbounds => ?_
      obtain ⟨first, hscanned, honly | ⟨escaped, hagain, hboth⟩⟩ := boundaries_mayCommit hbounds
      · rw [honly, scan_commit hcommits hkeyword hapart (htext ▸ hplain.spaceTo _) hscanned]
      · rw [hboth, scan_commit hcommits hkeyword hapart (htext ▸ hplain.spaceTo _) hscanned, Bool.true_or]
    · refine trClassify_of_core (.inr ⟨hinside, k, hcommits, ?_⟩)
      rw [hcore, hblank, nil_append]
      exact startsWithWordCi_append hkeyword (head_all_of_start hpre hapart')
    · exact absurd hsemicolon hinside
    · exact trClassify_of_boundaries fun b hbounds => by rw [hunlexed] at hbounds; cases hbounds

theorem leadsWithKeyword_commits_comment :
    leadsWithKeyword "/* a */ commit" "COMMIT" = true ∧
      NotResent (fun _ => false) "/* a */ commit" := by
  have hplain : PlainGap (leadGap "/* a */ commit") :=
    @PlainGap.block " a */" " " (by decide) (@PlainGap.blank ' ' [] (by decide) .nil)
  have hleads : leadsWithKeyword "/* a */ commit" "COMMIT" = true := by decide
  exact ⟨hleads, (leadsWithKeyword_commits _ (by decide) hleads).mpr (.inl hplain)⟩

/-- A vertical tab between a comment and the keyword. -/
theorem not_leadsWithKeyword_commits :
    leadsWithKeyword "/**/\x0bCOMMIT" "COMMIT" = true ∧
      trClassify (fun _ => false) "/**/\x0bCOMMIT" = .other ∧
      trDecide .transaction .outcomeUnknown true true true
        (trClassify (fun _ => false) "/**/\x0bCOMMIT") = .replayThenReexecute := by
  decide

/-! ## Queries inside a `COPY` -/

/-- `COPY ( query ) TO STDOUT`, laid out in any way. -/
inductive CopyOut (query : Str) : Str → Prop
  | mk {g₀ copy g₁ g₂ into g₃ stdout g₄ g₅ : Str} (hg₀ : Gap g₀) (hcopy : IsKeyword "COPY" copy)
      (hg₁ : Gap g₁) (hg₂ : Gap g₂) (hinto : IsKeyword "TO" into) (hg₃ : Gap g₃) (hne : g₃ ≠ [])
      (hstdout : IsKeyword "STDOUT" stdout) (hg₄ : Gap g₄) (hg₅ : Gap g₅) (semicolon : Bool) :
      CopyOut query (g₀ ++ (copy ++ (g₁ ++ '(' :: (query ++ ')' :: g₂ ++ into ++ g₃ ++ stdout ++
        g₄ ++ if semicolon then ';' :: g₅ else []))))

/-- A query that writes, or a `SELECT` that is no read by itself. -/
def NoRead (allowsCall : Str → Bool) (query : Str) : Prop :=
  (∃ k ∈ ["INSERT", "UPDATE", "DELETE", "MERGE"], leadsWithKeyword query k.toList = true) ∨
    (leadsWithKeyword query "SELECT" = true ∧ trClassify allowsCall query ≠ .read)

/-- The statement is no read, and outside a transaction it is not sent again where it may have run. -/
structure NotReread (allowsCall : Str → Bool) (sql : Str) : Prop where
  kind : trClassify allowsCall sql ≠ .read
  kept : ∀ mode txHasWrites txReplayable,
    trDecide mode .outcomeUnknown false txHasWrites txReplayable (trClassify allowsCall sql) ≠ .reexecute

theorem notReread_of_kind {kind : StmtKind} (hk : trClassify allowsCall sql = kind)
    (ho : kind ≠ .read ∧ kind ≠ .control) : NotReread allowsCall sql := by
  refine ⟨hk ▸ ho.1, fun mode writes replayable => ?_⟩
  rw [hk]
  cases mode <;> simp [trDecide, ho]

/-- The text has the word `from` or a semicolon inside, starts with a comment, does not lex, or has
a commit at the start of a statement. -/
def SeenInside (sql : Str) : Prop :=
  containsWordCi (statementCore sql) "from" = true ∨ ';' ∈ statementCore sql ∨
    startsWithWordCi (statementCore sql) "COPY" = false ∨ (boundaries sql).all (·.mayCommit) = true

theorem not_keyword_of_copy {core : Str} (hc : startsWithWordCi core "COPY") {k : String}
    (hd : 3 ≤ k.toList.length ∧ (k.toList.take 3).map Char.toLower ≠ "cop") :
    startsWithWordCi core k.toList = false := by
  rw [Bool.eq_false_iff]
  intro hl
  rw [startsWithWordCi, Bool.and_eq_true] at hc hl
  exact hd.2 (startsWithCi_unique 3 hl.1 hc.1 hd.1 (by decide))

theorem trClassify_copy {head : Str} (hb : boundaries sql = some ⟨head, false⟩) (hi : ';' ∉ statementCore sql)
    (hc : startsWithWordCi (statementCore sql) "COPY") :
    trClassify allowsCall sql = if containsWordCi (statementCore sql) "from" then .write else .read := by
  have ho {k : String} := not_keyword_of_copy (k := k) hc
  have hn : ¬ (statementCore sql).isEmpty := by
    rw [List.isEmpty_iff]
    intro he
    rw [he] at hc
    cases hc
  unfold trClassify
  rw [hb]
  rw [if_neg hn, if_neg (mt contains_iff_mem.mp hi)]
  simp (disch := decide) only [ho, hc, any_cons, any_nil, Bool.or_false, Bool.false_eq_true, if_false,
    if_true]

theorem trClassify_semicolon {head : Str} (hb : boundaries sql = some ⟨head, false⟩)
    (hi : ';' ∈ statementCore sql) : trClassify allowsCall sql = .commit ∨ trClassify allowsCall sql = .write := by
  have hn : ¬ (statementCore sql).isEmpty := by
    rw [List.isEmpty_iff]
    exact ne_nil_of_mem hi
  unfold trClassify
  rw [hb]
  dsimp only
  rw [if_neg hn, if_pos (contains_iff_mem.mpr hi)]
  split
  · exact .inl rfl
  · exact .inr rfl

/-- Where rows are copied out, what the query does is noticed exactly if it shows in the text. -/
theorem copyOut_notReread (allowsCall : Str → Bool) {query sql : Str} (hcopies : CopyOut query sql) :
    NotReread allowsCall sql ↔ SeenInside sql := by
  obtain @⟨g₀, copy, g₁, g₂, into, g₃, stdout, g₄, g₅, hlead, hisCopy, hbehind, -⟩ := hcopies
  generalize hrest : g₁ ++ '(' :: _ = r
  have hapart : StartsApart r := by
    cases g₁ with
    | nil => exact hrest ▸ rfl
    | cons c g₁ => exact hrest ▸ (gap_startsApart hbehind : StartsApart (c :: g₁))
  have hspelled : Spelled "COPY" := by decide
  obtain ⟨r', hpre, hcore⟩ := statementCore_append (firm_of_keyword hspelled hisCopy) g₀ r
  generalize g₀ ++ (copy ++ r) = sql at hcore
  constructor
  · intro hkept
    by_contra hseen
    simp only [SeenInside, not_or, Bool.not_eq_false] at hseen
    obtain ⟨hnoFrom, hinside, hleads, hsilent⟩ := hseen
    cases hbounds : boundaries sql with
    | none => exact hsilent (hbounds ▸ rfl)
    | some b =>
      obtain ⟨head, mayCommit⟩ := b
      obtain rfl : mayCommit = false := by
        rw [hbounds] at hsilent
        exact Bool.eq_false_iff.mpr hsilent
      refine hkept.kind ?_
      rw [trClassify_copy hbounds hinside hleads, if_neg hnoFrom]
  · intro hseen
    cases hbounds : boundaries sql with
    | none =>
      exact notReread_of_kind (trClassify_of_boundaries fun b hsome => by rw [hbounds] at hsome; cases hsome) (by decide)
    | some b =>
      obtain ⟨head, mayCommit⟩ := b
      cases mayCommit with
      | true =>
        refine notReread_of_kind (trClassify_of_boundaries fun b hsome => ?_) (by decide)
        rw [hbounds] at hsome
        cases hsome
        rfl
      | false =>
        by_cases hinside : ';' ∈ statementCore sql
        · exact (trClassify_semicolon hbounds hinside).elim (notReread_of_kind · (by decide))
            (notReread_of_kind · (by decide))
        rcases trimStart_gap hlead with hblank | ⟨c, x, hcomment, hopens⟩
        · have hleads : startsWithWordCi (statementCore sql) "COPY" = true := by
            rw [hcore, hblank, nil_append]
            exact startsWithWordCi_append hisCopy (head_all_of_start hpre hapart)
          have hfound : containsWordCi (statementCore sql) "from" = true := by
            rw [SeenInside, hleads, hbounds] at hseen
            simpa [hinside] using hseen
          exact notReread_of_kind ((trClassify_copy hbounds hinside hleads).trans (if_pos hfound)) (by decide)
        · rw [hcomment] at hcore
          exact notReread_of_kind (trClassify_comment hbounds hinside hcore hopens) (by decide)

/-- The layout of the examples: one blank between the words. -/
theorem copyOut_spaced (query : Str) {g : Str} (hg : Gap g) (semicolon : Bool) :
    CopyOut query ("COPY (" ++ (query ++ ") TO STDOUT" ++
      if semicolon then ';' :: g else [])) := by
  have hblank : Gap [' '] := .blank (by decide) .nil
  have hlaid := @CopyOut.mk query [] "COPY" [' '] [' '] "TO" [' '] "STDOUT" [] g .nil
    (by decide) hblank hblank (by decide) hblank (by decide) (by decide) .nil hg semicolon
  simpa using hlaid

theorem copyOut_notReread_select :
    CopyOut "INSERT INTO t SELECT a FROM u RETURNING a"
        "COPY (INSERT INTO t SELECT a FROM u RETURNING a) TO STDOUT; " ∧
      NoRead (fun _ => true) "INSERT INTO t SELECT a FROM u RETURNING a" ∧
      NotReread (fun _ => true) "COPY (INSERT INTO t SELECT a FROM u RETURNING a) TO STDOUT; " := by
  have hlaid := copyOut_spaced "INSERT INTO t SELECT a FROM u RETURNING a"
    (.blank (c := ' ') (by decide) .nil) true
  exact ⟨hlaid, .inl ⟨"INSERT", by decide, by decide⟩,
    (copyOut_notReread _ hlaid).mpr (.inl (by decide))⟩

/-- A write whose rows are copied out, with nothing of its text called `from`. -/
theorem not_copyOut_notReread :
    CopyOut "INSERT INTO t VALUES (1) RETURNING a"
        "COPY (INSERT INTO t VALUES (1) RETURNING a) TO STDOUT" ∧
      NoRead (fun _ => false) "INSERT INTO t VALUES (1) RETURNING a" ∧
      trDecide .select .outcomeUnknown false false false
        (trClassify (fun _ => false) "COPY (INSERT INTO t VALUES (1) RETURNING a) TO STDOUT") = .reexecute := by
  exact ⟨copyOut_spaced "INSERT INTO t VALUES (1) RETURNING a" .nil false,
    .inl ⟨"INSERT", by decide, by decide⟩, by decide⟩

end HeliosProxy.Replay
