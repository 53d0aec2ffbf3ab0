import HeliosProxy.Journal.WriteLayouts
import HeliosProxy.Postgres.SessionState
import HeliosProxy.Text.Chars

/-!
# Parking a connection without a reset

A backend connection that no statement has left anything on is parked without
`DISCARD ALL`.  Whether a statement leaves something is read off its front and off
a few words anywhere in it.
-/

namespace HeliosProxy.Pool

open Text Postgres Journal List Option

def neutralLeads : List String :=
  ["SELECT", "INSERT", "UPDATE", "DELETE", "WITH", "VALUES", "TABLE", "SHOW", "EXPLAIN", "FETCH",
    "BEGIN", "START", "COMMIT", "END", "ROLLBACK", "ABORT", "SAVEPOINT", "RELEASE"]

def dirtyTokens : List String := ["set_config", "advisory", "nextval", "setval"]

def stmtLeavesSessionState (sql : Str) : Bool :=
  if (trim sql).isEmpty then false
  else
    let core := statementCore sql
    let leads := fun k : String => startsWithCi core k.toList
    if core.contains ';' then true
    else if !neutralLeads.any leads then true
    else if (leads "SELECT" || leads "WITH") && containsWordCi core "into" then true
    else dirtyTokens.any fun tok => containsSub tok.toList (core.map Char.toLower)

/-- Nothing in a text makes the test suspicious but, maybe, its first word. -/
structure Unsuspicious (core : Str) : Prop where
  uncommented : core.head? ≠ some '-' ∧ core.head? ≠ some '/'
  single : ';' ∉ core
  into : startsWithCi core "SELECT" = true ∨ startsWithCi core "WITH" = true →
    containsWordCi core "into" = false
  clean : ∀ tok ∈ dirtyTokens, ¬ tok.toList <:+: core.map Char.toLower

def HasNeutralLead (core : Str) : Prop := ∃ k ∈ neutralLeads, startsWithCi core k.toList = true

theorem startsWithCi_cons_false {c d : Char} (x n : Str) (h : c.toLower ≠ d.toLower) :
    startsWithCi (c :: x) (d :: n) = false := by
  rw [startsWithCi, eqIgnoreCase]
  simp [h]

theorem HasNeutralLead.uncommented {core : Str} (h : HasNeutralLead core) :
    core.head? ≠ some '-' ∧ core.head? ≠ some '/' := by
  obtain ⟨n, hn, hstarts⟩ := h
  have hletters : ∀ n ∈ neutralLeads,
      n.toList.head?.any (fun d => '-'.toLower != d.toLower && '/'.toLower != d.toLower) := by
        decide
  have hletter := hletters n hn
  cases hname : n.toList with
  | nil =>
    rw [hname] at hletter
    cases hletter
  | cons d m =>
    rw [hname, head?_cons, any_some, Bool.and_eq_true, bne_iff_ne, bne_iff_ne] at hletter
    rw [hname] at hstarts
    cases core with
    | nil => exact ⟨by simp, by simp⟩
    | cons c x =>
      refine ⟨?_, ?_⟩
      · rintro ⟨⟩
        rw [startsWithCi_cons_false x m hletter.1] at hstarts
        cases hstarts
      · rintro ⟨⟩
        rw [startsWithCi_cons_false x m hletter.2] at hstarts
        cases hstarts

theorem stmtLeavesSessionState_eq_false_iff {sql : Str} (hne : trim sql ≠ []) :
    stmtLeavesSessionState sql = false ↔
      HasNeutralLead (statementCore sql) ∧ Unsuspicious (statementCore sql) := by
  rw [stmtLeavesSessionState, if_neg (by simpa using hne)]
  generalize statementCore sql = core
  have hdirty :
    (dirtyTokens.any fun tok => containsSub tok.toList (core.map Char.toLower)) = false ↔
      ∀ tok ∈ dirtyTokens, ¬ tok.toList <:+: core.map Char.toLower := by
    simp only [List.any_eq_false, containsSub_iff]
  have hlead : (neutralLeads.any fun k => startsWithCi core k.toList) = true ↔
    HasNeutralLead core :=
    List.any_eq_true
  dsimp only
  split
  next hsemi =>
    exact ⟨fun h => (nomatch h), fun h => absurd (by simpa using hsemi) h.2.single⟩
  next hsemi =>
  split
  next hnone =>
    rw [Bool.not_eq_true', ← Bool.not_eq_true, hlead] at hnone
    exact ⟨fun h => (nomatch h), fun h => absurd h.1 hnone⟩
  next hsome =>
  rw [Bool.not_eq_true', Bool.not_eq_false, hlead] at hsome
  split
  next hinto =>
    rw [Bool.and_eq_true, Bool.or_eq_true] at hinto
    refine ⟨fun h => (nomatch h), fun h => ?_⟩
    rw [h.2.into hinto.1] at hinto
    cases hinto.2
  next hinto =>
    rw [Bool.and_eq_true, Bool.or_eq_true, not_and, Bool.not_eq_true] at hinto
    rw [hdirty]
    exact ⟨fun h => ⟨hsome, hsome.uncommented, by simpa using hsemi, hinto, h⟩, fun h => h.2.clean⟩

/-! ## What the trimming keeps -/

/-- A text that neither white space nor a semicolon is cut off from. -/
structure Firm (w : Str) : Prop where
  head : w.head?.any (!isWhitespace ·) = true
  last : w.getLast?.any (fun c => !isWhitespace c && c != ';') = true

variable {w : Str}

theorem Firm.ne_nil (h : Firm w) : w ≠ [] := by
  rintro rfl
  cases h.head

theorem trimStart_append {a y : Str} (hy : y.head?.any (!isWhitespace ·)) :
    trimStart (a ++ y) = trimStart a ++ y := by
  rw [trimStart, trimStart, dropWhile_append]
  split
  · next hempty =>
    rw [List.isEmpty_iff.1 hempty]
    refine dropWhile_of_head ?_
    cases y with
    | nil => rfl
    | cons c y => exact hy
  · rfl

theorem statementCore_append (hw : Firm w) (a b : Str) :
    ∃ b', b' <+: b ∧ statementCore (a ++ (w ++ b)) = trimStart a ++ (w ++ b') := by
  have hlast : (trimStart a ++ w).getLast? = w.getLast? :=
    getLast?_append_of_ne_nil _ hw.ne_nil
  have hspace : (trimStart a ++ w).getLast?.all (!isWhitespace ·) := by
    rw [hlast]
    cases hc : w.getLast? with
    | none => rfl
    | some c =>
      have hcut := hw.last
      rw [hc, any_some, Bool.and_eq_true] at hcut
      exact hcut.1
  have hfront : trimStart (a ++ (w ++ b)) = trimStart a ++ w ++ b := by
    rw [trimStart_append (by rw [head?_append_of_ne_nil _ hw.ne_nil]; exact hw.head),
      append_assoc]
  obtain ⟨b₁, hb₁, htrim⟩ :
    ∃ b₁, b₁ <+: b ∧ trimEnd (trimStart a ++ w ++ b) = trimStart a ++ w ++ b₁ :=
    ⟨_, trimEnd_start b, trimEnd_append hspace b⟩
  rw [statementCore, trim, hfront, htrim]
  split
  · next hsemi =>
    have hb : b₁ ≠ [] := by
      rintro rfl
      rw [List.append_nil, hlast, beq_iff_eq] at hsemi
      have hcut := hw.last
      rw [hsemi] at hcut
      cases hcut
    have hcut : b₁.dropLast <+: b₁ := dropLast_prefix b₁
    refine ⟨_, ((trimEnd_start b₁.dropLast).trans hcut).trans hb₁, ?_⟩
    rw [dropLast_append_of_ne_nil hb, trimEnd_append hspace, append_assoc]
  · exact ⟨_, (trimEnd_start b₁).trans hb₁, by rw [trimEnd_append hspace, append_assoc]⟩

variable {g : Str}

theorem trimStart_gap (hg : Gap g) :
    trimStart g = [] ∨ ∃ c r, trimStart g = c :: r ∧ (c = '-' ∨ c = '/') := by
  induction hg with
  | nil => exact .inl rfl
  | blank hc _ ih =>
    rwa [trimStart, dropWhile_cons, if_pos (isWhitespace_of_isSpace hc)]
  | line _ _ _ _ => exact .inr ⟨'-', _, rfl, .inl rfl⟩
  | block _ _ _ => exact .inr ⟨'/', _, rfl, .inr rfl⟩

/-! ## The front of a statement -/

section Lead

variable {k : String} {t : Tok} {ts : List Tok} {text w : Str}

def Spelled (k : String) : Prop :=
  k.toList ≠ [] ∧ (k.toList.map Char.toLower).all Char.isAlpha = true

instance (k : String) : Decidable (Spelled k) := inferInstanceAs (Decidable (_ ∧ _))

theorem firm_of_keyword (hk : Spelled k) (hw : IsKeyword k w) : Firm w := by
  have halpha := hw.all_isAlpha hk.2
  have hne : w ≠ [] := by
    rintro rfl
    exact hk.1 (map_eq_nil_iff.1 hw.map_toLower.symm)
  have hkept : ∀ c ∈ w, (!isWhitespace c && c != ';') := by
    intro c hc
    have hletter := List.all_eq_true.1 halpha c hc
    rw [isWhitespace_of_isAlpha hletter, Bool.not_false, Bool.true_and, bne_iff_ne]
    rintro rfl
    cases hletter
  refine ⟨?_, ?_⟩
  · rw [head?_eq_some_head hne]
    exact (Bool.and_eq_true_iff.1 (hkept _ (head_mem hne))).1
  · rw [getLast?_eq_some_getLast hne]
    exact hkept _ (getLast_mem hne)

theorem written_keyword (ht : t.isWord k) (hw : t.Written w)
    (hk : k.toList.map Char.toLower = k.toList) :
    IsKeyword k w := by
  cases t with
  | word n =>
    have hname : n.map Char.toLower = k.toList := by simpa [Tok.isWord] using ht
    have hspelled : w.map Char.toLower = n.map Char.toLower := by
      simpa [Tok.Written, eqIgnoreCase] using hw
    rw [IsKeyword, eqIgnoreCase, hspelled, hname, hk]
    exact beq_self_eq_true _
  | _ => cases ht

theorem layout_front (h : IsLayout (t :: ts) text) :
    ∃ g w rest, Gap g ∧ t.Written w ∧ text = g ++ (w ++ rest) := by
  cases h with
  | bare hg hs =>
    cases hs with
    | cons hw _ _ _ => exact ⟨_, _, _, hg, hw, rfl⟩
  | closed hg hs _ =>
    cases hs with
    | cons hw _ _ _ => exact ⟨_, _, _, hg, hw, by rw [append_assoc]⟩

theorem core_of_lead (h : IsLayout (t :: ts) text) (ht : t.isWord k) (hk : Spelled k)
    (hlower : k.toList.map Char.toLower = k.toList)
    (hbare : (statementCore text).head? ≠ some '-' ∧ (statementCore text).head? ≠ some '/') :
    ∃ w r, IsKeyword k w ∧ statementCore text = w ++ r := by
  obtain ⟨g, w, rest, hg, hw, rfl⟩ := layout_front h
  have hword := written_keyword ht hw hlower
  obtain ⟨r, -, hcore⟩ := statementCore_append (firm_of_keyword hk hword) g rest
  rcases trimStart_gap hg with hnone | ⟨c, x, hcomment, hc⟩
  · exact ⟨w, r, hword, by rw [hcore, hnone, nil_append]⟩
  · rw [hcore, hcomment] at hbare
    rcases hc with rfl | rfl
    · exact absurd rfl hbare.1
    · exact absurd rfl hbare.2

def Unlike (k n : String) : Prop :=
  (k.toList.map Char.toLower).take n.toList.length ≠
    (n.toList.map Char.toLower).take k.toList.length

instance (k n : String) : Decidable (Unlike k n) := inferInstanceAs (Decidable (_ ≠ _))

theorem startsWithCi_unlike {n : String} (hw : IsKeyword k w) (h : Unlike k n) (r : Str) :
    startsWithCi (w ++ r) n.toList = false := by
  rw [Bool.eq_false_iff]
  intro hstarts
  have hfront : ((w ++ r).take n.toList.length).map Char.toLower = n.toList.map Char.toLower := by
    simpa [startsWithCi, eqIgnoreCase] using hstarts
  have hlength : w.length = k.toList.length := by
    rw [← length_map, hw.map_toLower, length_map]
  apply h
  rw [← hfront, ← hw.map_toLower, ← hlength, map_take, take_take, Nat.min_comm, ← take_take,
    map_append, take_left' (length_map _)]

theorem not_hasNeutralLead (h : IsLayout (t :: ts) text) (ht : t.isWord k) (hk : Spelled k)
    (hlower : k.toList.map Char.toLower = k.toList) (hunlike : ∀ n ∈ neutralLeads, Unlike k n) :
    ¬ HasNeutralLead (statementCore text) := by
  intro hlead
  obtain ⟨w, r, hw, hcore⟩ := core_of_lead h ht hk hlower hlead.uncommented
  obtain ⟨n, hn, hstarts⟩ := hlead
  rw [hcore, startsWithCi_unlike hw (hunlike n hn)] at hstarts
  cases hstarts

end Lead

/-! ## Words anywhere in it -/

def EndsApart (a : Str) : Prop := a.getLast?.all (!asciiIdent ·) = true

def StartsApart (b : Str) : Prop := b.head?.all (!asciiIdent ·) = true

theorem asciiIdent_of_isSpace {c : Char} (h : isSpace c) : asciiIdent c = false := by
  simpa using isSpace_all (p := fun c => !asciiIdent c) rfl h

variable {b : Str}

theorem endsApart_append {a : Str} (ha : EndsApart a) (hb : EndsApart b) : EndsApart (a ++ b) := by
  cases b with
  | nil => rwa [List.append_nil]
  | cons c b =>
    rw [EndsApart, getLast?_append_of_ne_nil _ (cons_ne_nil c b)]
    exact hb

theorem endsApart_of_ne_nil (hb : EndsApart b) (hne : b ≠ []) (a : Str) : EndsApart (a ++ b) := by
  rw [EndsApart, getLast?_append_of_ne_nil _ hne]
  exact hb

theorem endsApart_concat {c : Char} (hc : asciiIdent c = false) (x : Str) :
    EndsApart (x ++ [c]) := by
  rw [EndsApart]
  simp [hc]

theorem exists_of_closesAt {depth : Nat} {s : Str} (h : closesAt depth s) (hdepth : 0 < depth) :
    ∃ x, s = x ++ ['/'] := by
  fun_induction closesAt depth s with
  | case1 => cases hdepth
  | case2 depth s ih =>
    obtain ⟨x, rfl⟩ := ih h (Nat.succ_pos _)
    exact ⟨'/' :: '*' :: x, rfl⟩
  | case3 depth s ih =>
    cases depth with
    | zero =>
      obtain rfl : s = [] := by simpa [closesAt] using h
      exact ⟨['*'], rfl⟩
    | succ depth =>
      obtain ⟨x, rfl⟩ := ih h (Nat.succ_pos _)
      exact ⟨'*' :: '/' :: x, rfl⟩
  | case4 depth c s _ _ ih =>
    obtain ⟨x, rfl⟩ := ih h (Nat.succ_pos _)
    exact ⟨c :: x, rfl⟩
  | case5 => cases h

theorem gap_endsApart (hg : Gap g) : EndsApart g := by
  induction hg with
  | nil => rfl
  | @blank c s hc _ ih =>
    exact endsApart_append (endsApart_concat (asciiIdent_of_isSpace hc) []) ih
  | @line body s c _ hc _ ih =>
    have hend :=
      endsApart_append (endsApart_concat (asciiIdent_of_isSpace (isSpace_of_isLineEnd hc)) []) ih
    exact endsApart_of_ne_nil hend (cons_ne_nil c s) _
  | @block body s hbody _ ih =>
    obtain ⟨x, rfl⟩ := exists_of_closesAt hbody Nat.one_pos
    refine endsApart_append ?_ ih
    rw [← append_assoc]
    exact endsApart_concat rfl _

theorem gap_startsApart (hg : Gap g) : StartsApart g := by
  cases hg with
  | nil => rfl
  | blank hc _ => simp [StartsApart, asciiIdent_of_isSpace hc]
  | line _ _ _ | block _ _ => rfl

variable {t : Tok} {k : String}

theorem written_startsApart {t' : Tok} (ht : t.isWord k)
    (hapart : t.apart t') (hw : t'.Written w) (r : Str) : StartsApart (w ++ r) := by
  cases t with
  | word n =>
    cases t' with
    | quoted _ | lparen | rparen | comma | dot =>
      rw [hw]
      rfl
    | word _ | unicode _ _ | other _ => cases hapart
  | _ => cases ht

theorem written_endsApart {t' : Tok} (ht : t'.isWord k)
    (hapart : t.apart t') (hw : t.Written w) (x : Str) : EndsApart (x ++ w) := by
  have hquote : ∀ v : Str, EndsApart (x ++ (v ++ ['"'])) := fun v => by
    rw [← append_assoc]
    exact endsApart_concat rfl _
  cases t' with
  | word n =>
    cases t with
    | quoted _ =>
      rw [hw]
      exact hquote (_ :: _)
    | unicode _ _ =>
      obtain ⟨u, v, -, rfl, ⟨-, rfl⟩ | ⟨g, n, g', -, -, -, rfl⟩⟩ := hw
      · exact hquote (_ :: _ :: _ :: _)
      · simpa using endsApart_concat rfl
          (x ++ (u :: '&' :: '"' :: _ ++ '"' :: (g ++ (n ++ (g' ++ ['\'', _])))))
    | lparen | rparen | comma | dot =>
      rw [hw]
      exact endsApart_concat rfl _
    | word _ | other _ => cases hapart
  | _ => cases ht

variable {ts : List Tok}

theorem TokensLaid.exists_word {s : Str} (h : TokensLaid ts s)
    (hlower : k.toList.map Char.toLower = k.toList) (hmem : ts.any (Tok.isWord k)) {x y : Str}
    (hx : ts.head?.any (Tok.isWord k) → EndsApart x) (hy : StartsApart y) :
    ∃ a w b, IsKeyword k w ∧ x ++ (s ++ y) = a ++ (w ++ b) ∧ EndsApart a ∧ StartsApart b := by
  induction h generalizing x with
  | nil => cases hmem
  | @cons t ts w g s hw hg hapart hs ih =>
    by_cases ht : t.isWord k
    · refine ⟨x, w, g ++ (s ++ y), written_keyword ht hw hlower, by simp, hx ht, ?_⟩
      by_cases hne : g = []
      · rw [hne]
        cases hs with
        | nil => exact hy
        | cons hw' _ _ _ =>
          rw [append_assoc]
          exact written_startsApart ht (hapart hne) hw' _
      · obtain ⟨c, g, rfl⟩ := exists_cons_of_ne_nil hne
        have hstart := gap_startsApart hg
        exact hstart
    · rw [any_cons, Bool.or_eq_true] at hmem
      have hrest := hmem.resolve_left ht
      have hbehind : ts.head?.any (Tok.isWord k) → EndsApart (x ++ (w ++ g)) := by
        intro hnext
        by_cases hne : g = []
        · rw [hne, List.append_nil]
          cases ts with
          | nil => cases hnext
          | cons t' ts => exact written_endsApart hnext (hapart hne) hw x
        · rw [← append_assoc]
          exact endsApart_of_ne_nil (gap_endsApart hg) hne _
      obtain ⟨a, v, b, hv, heq, ha, hb⟩ := ih hrest hbehind
      exact ⟨a, v, b, hv, by rw [← heq]; simp, ha, hb⟩

theorem startsWithWordCi_append (hw : IsKeyword k w) (hb : StartsApart b) :
    startsWithWordCi (w ++ b) k.toList := by
  have hlength : w.length = k.toList.length := by
    rw [← length_map, hw.map_toLower, length_map]
  rw [startsWithWordCi, startsWithCi_append hw, drop_left' hlength]
  cases b with
  | nil => rfl
  | cons c b => exact hb

theorem containsWordCiFrom_append (hk : k.toList ≠ []) (hw : IsKeyword k w)
    (hb : StartsApart b) (a : Str) {before : Option Char}
    (ha : (a.getLast?.or before).all (!asciiIdent ·)) :
    containsWordCiFrom k.toList before (a ++ (w ++ b)) := by
  induction a generalizing before with
  | nil =>
    have hne : w ≠ [] := by
      rintro rfl
      exact hk (map_eq_nil_iff.1 hw.map_toLower.symm)
    obtain ⟨c, v, rfl⟩ := exists_cons_of_ne_nil hne
    have hfree : before.any asciiIdent = false := by
      cases before with
      | none => rfl
      | some d => simpa using ha
    rw [nil_append, cons_append, containsWordCiFrom, hfree, ← cons_append,
      startsWithWordCi_append hw hb]
    rfl
  | cons c a ih =>
    have hlast : (c :: a).getLast? = a.getLast?.or (some c) := by
      rw [getLast?_cons]
      cases a.getLast? <;> rfl
    rw [hlast] at ha
    rw [cons_append, containsWordCiFrom, ih, Bool.or_true]
    cases hl : a.getLast? with
    | none | some d => rwa [hl] at ha

theorem containsWordCi_core (hk : Spelled k) (hw : IsKeyword k w) {a : Str} (ha : EndsApart a)
    (hb : StartsApart b) : containsWordCi (statementCore (a ++ (w ++ b))) k.toList := by
  obtain ⟨b', hb', hcore⟩ := statementCore_append (firm_of_keyword hk hw) a b
  have hsuffix : (trimStart a).getLast?.all (fun c => !asciiIdent c) := by
    obtain ⟨x, hx⟩ : trimStart a <:+ a := dropWhile_suffix _
    cases hl : trimStart a with
    | nil => rfl
    | cons c r =>
      rw [EndsApart, ← hx, hl, getLast?_append_of_ne_nil _ (cons_ne_nil c r)] at ha
      exact ha
  rw [hcore, containsWordCi, containsWordCiFrom_append hk.1 hw (head_all_of_start hb' hb)]
  · simpa using hk.1
  · rwa [or_none]

section Layout

variable {ts : List Tok} {text : Str} {k : String}

theorem layout_word (h : IsLayout ts text) (hlower : k.toList.map Char.toLower = k.toList)
    (hmem : ts.any (Tok.isWord k)) :
    ∃ a w b, IsKeyword k w ∧ text = a ++ (w ++ b) ∧ EndsApart a ∧ StartsApart b := by
  cases h with
  | @bare g s hg hs =>
    obtain ⟨a, w, b, hw, heq, ha, hb⟩ :=
      TokensLaid.exists_word hs hlower hmem (y := []) (fun _ => gap_endsApart hg) rfl
    exact ⟨a, w, b, hw, by rwa [List.append_nil] at heq, ha, hb⟩
  | @closed g s e hg hs he =>
    exact TokensLaid.exists_word hs hlower hmem (fun _ => gap_endsApart hg) rfl

theorem containsWordCi_of_layout (h : IsLayout ts text) (hk : Spelled k)
    (hlower : k.toList.map Char.toLower = k.toList) (hmem : ts.any (Tok.isWord k)) :
    containsWordCi (statementCore text) k.toList := by
  obtain ⟨a, w, b, hw, rfl, ha, hb⟩ := layout_word h hlower hmem
  exact containsWordCi_core hk hw ha hb

theorem layout_token {t : Tok} (h : IsLayout ts text) (ht : t ∈ ts) :
    ∃ a w b, t.Written w ∧ text = a ++ (w ++ b) := by
  have hlaid : ∀ {ts : List Tok} {s : Str}, TokensLaid ts s → t ∈ ts →
      ∃ a w b, t.Written w ∧ s = a ++ (w ++ b) := by
    intro ts s hs hmem
    induction hs with
    | nil => cases hmem
    | @cons t' ts w g s hw _ _ _ ih =>
      rcases mem_cons.1 hmem with rfl | hrest
      · exact ⟨[], w, g ++ s, hw, rfl⟩
      · obtain ⟨a, v, b, hv, rfl⟩ := ih hrest
        exact ⟨w ++ (g ++ a), v, b, hv, by simp⟩
  cases h with
  | bare hg hs =>
    obtain ⟨a, w, b, hw, rfl⟩ := hlaid hs ht
    exact ⟨_, w, b, hw, (append_assoc _ _ _).symm⟩
  | @closed g s e hg hs he =>
    obtain ⟨a, w, b, hw, rfl⟩ := hlaid hs ht
    exact ⟨g ++ a, w, b ++ ';' :: e, hw, by simp⟩

end Layout

/-! ## Names of functions -/

def sessionFunctions : List Str := "set_config" :: advisoryLocks

theorem mem_sessionFunctions {n : Str} (h : calledLeaves n ≠ []) : n ∈ sessionFunctions := by
  rw [calledLeaves] at h
  split at h
  · next heq => exact heq ▸ mem_cons_self
  · split at h
    · next hmem => exact mem_cons_of_mem _ hmem
    · exact absurd rfl h

theorem dirty_of_mem : ∀ n ∈ sessionFunctions, ∃ tok ∈ dirtyTokens, tok.toList <:+: n := by decide

theorem lower_of_mem : ∀ n ∈ sessionFunctions, n.map Char.toLower = n := by decide

theorem ends_of_mem : ∀ n ∈ sessionFunctions,
    n.head?.any Char.isAlpha ∧ n.getLast?.any Char.isAlpha ∧ '"' ∉ n := by decide

def escaped : Tok → Bool
  | .unicode e b => b.contains e
  | _ => false

theorem unescape_of_notMem {e : Char} (h : e ∉ b) : unescape e 0 b = some b := by
  induction b with
  | nil => rfl
  | cons c b ih =>
    rw [mem_cons, not_or] at h
    rw [unescape, if_neg (Ne.symm h.1), ih h.2]
    rfl

theorem firm_of_lower (hhead : (w.map Char.toLower).head?.any Char.isAlpha)
    (hlast : (w.map Char.toLower).getLast?.any Char.isAlpha) : Firm w := by
  have hletter : ∀ c : Char, c.toLower.isAlpha → (!isWhitespace c && c != ';') := by
    intro c hc
    rw [isWhitespace_of_isAlpha (isAlpha_of_toLower hc), Bool.not_false, Bool.true_and, bne_iff_ne]
    rintro rfl
    cases hc
  refine ⟨?_, ?_⟩
  · rw [head?_map] at hhead
    cases hc : w.head? with
    | none =>
      rw [hc] at hhead
      cases hhead
    | some c =>
      rw [hc] at hhead
      exact (Bool.and_eq_true_iff.1 (hletter c hhead)).1
  · rw [getLast?_map] at hlast
    cases hc : w.getLast? with
    | none =>
      rw [hc] at hlast
      cases hlast
    | some c =>
      rw [hc] at hlast
      exact hletter c hlast

theorem written_name {n : Str} (hn : t.name? = some n) (hmem : n ∈ sessionFunctions)
    (he : escaped t = false) (hw : t.Written w) : Firm w ∧ n <:+: w.map Char.toLower := by
  obtain ⟨hhead, hlast, hquote⟩ := ends_of_mem n hmem
  have hlower := lower_of_mem n hmem
  cases t with
  | word m =>
    have hname : m.map Char.toLower = n := Option.some.inj hn
    have hspelled : w.map Char.toLower = n := by
      rw [← hname]
      simpa [Tok.Written, eqIgnoreCase] using hw
    refine ⟨firm_of_lower ?_ ?_, ?_⟩
    · rwa [hspelled]
    · rwa [hspelled]
    · rw [hspelled]
  | quoted m =>
    obtain rfl : m = n := Option.some.inj hn
    have hplain : m.flatMap (fun c => if c = '"' then ['"', '"'] else [c]) = m.flatMap ([·]) :=
      flatMap_congr fun c hc => if_neg (by rintro rfl; exact hquote hc)
    rw [Tok.Written, hplain, flatMap_singleton'] at hw
    rw [hw]
    refine ⟨⟨rfl, by rw [getLast?_concat]; rfl⟩, ?_⟩
    rw [map_append, map_cons, hlower]
    exact ⟨['"'], ['"'], rfl⟩
  | unicode e b =>
    have hbody : b = n := by
      rw [Tok.name?, unescape_of_notMem (by simpa [escaped] using he)] at hn
      exact Option.some.inj hn
    obtain ⟨u, v, hu, rfl, hv⟩ := hw
    rw [hbody]
    refine ⟨⟨?_, ?_⟩, ?_⟩
    · rcases hu with rfl | rfl <;> rfl
    · rcases hv with ⟨-, rfl⟩ | ⟨g, k, g', -, -, -, rfl⟩
      · rw [getLast?_concat]
        rfl
      · have hend : u :: '&' :: '"' :: n ++ '"' :: (g ++ (k ++ (g' ++ ['\'', e, '\'']))) =
            u :: '&' :: '"' :: n ++ '"' :: (g ++ (k ++ (g' ++ ['\'', e]))) ++ ['\''] := by simp
        rw [hend, getLast?_concat]
        rfl
    · simp only [map_append, map_cons, hlower]
      exact ⟨[u.toLower, '&', '"'], '"' :: v.map Char.toLower, rfl⟩
  | _ => cases hn

/-! ## Statements -/

theorem mem_of_mem_called (h : t ∈ called ts) : t ∈ ts := by
  fun_induction called ts with
  | case1 t' ts ih =>
    rcases mem_cons.1 h with rfl | hrest
    · exact mem_cons_self
    · exact mem_cons_of_mem _ (ih hrest)
  | case2 _ ts _ ih => exact mem_cons_of_mem _ (ih h)
  | case3 => exact h

/-- What is left by calls whose names are written with an escape. -/
def escapedLeave (ts : List Tok) : List Leftover :=
  ((called ts).filter escaped).flatMap fun t => t.name?.elim [] calledLeaves

theorem escapedLeave_eq_nil (h : callsLeave ts = []) : escapedLeave ts = [] :=
  flatMap_eq_nil_iff.2 fun t ht => flatMap_eq_nil_iff.1 h t (mem_filter.1 ht).1

variable {text : Str}

theorem callsLeave_eq_nil {body : List Tok} (h : IsLayout ts text) (hbody : body ⊆ ts)
    (hshown : escapedLeave body = []) (hclean : ∀ tok ∈ dirtyTokens,
      ¬ tok.toList <:+: (statementCore text).map Char.toLower) : callsLeave body = [] := by
  refine flatMap_eq_nil_iff.2 fun t ht => ?_
  by_contra hleaves
  have hplain : escaped t = false := by
    by_contra hescaped
    exact hleaves (flatMap_eq_nil_iff.1 hshown t (mem_filter.2 ⟨ht, by simpa using hescaped⟩))
  cases hname : t.name? with
  | none =>
    rw [hname] at hleaves
    exact hleaves rfl
  | some n =>
    rw [hname] at hleaves
    have hmem := mem_sessionFunctions hleaves
    obtain ⟨a, w, b, hw, rfl⟩ := layout_token h (hbody (mem_of_mem_called ht))
    obtain ⟨hfirm, hwithin⟩ := written_name hname hmem hplain hw
    obtain ⟨b', -, hcore⟩ := statementCore_append hfirm a b
    obtain ⟨tok, htok, hdirty⟩ := dirty_of_mem n hmem
    refine hclean tok htok (hdirty.trans (hwithin.trans ?_))
    rw [hcore, map_append, map_append]
    exact ⟨_, _, append_assoc _ _ _⟩

theorem any_isWord_of_hasInto {selecting : Bool} {depth : Nat} {prev : Option Tok}
    (h : hasInto selecting depth prev ts) : ts.any (Tok.isWord "into") := by
  fun_induction hasInto selecting depth prev ts with
  | case1 => cases h
  | case2 _ _ _ ts ih | case3 _ _ _ ts ih =>
    rw [any_cons, ih h, Bool.or_true]
  | case4 _ depth prev t ts _ _ ih =>
    rw [any_cons, Bool.or_eq_true]
    rw [Bool.or_eq_true] at h
    rcases h with hhere | hrest
    · simp only [Bool.and_eq_true] at hhere
      exact .inl hhere.1.2
    · exact .inr (ih hrest)

def queryOf : Statement → List Tok
  | .query _ body | .createTempAs _ body | .declareHold _ body => body
  | .showSetting _ | .fetch _ | .set _ | .prepare _ | .listen _ | .explain _ _ => []

theorem queryOf_subset (s : Statement) : queryOf s ⊆ s.tokens := by
  cases s with
  | query lead body => exact subset_cons_self _ _
  | createTempAs table body | declareHold cursor body =>
    intro t ht
    simp only [Statement.tokens, mem_cons]
    tauto
  | showSetting _ | fetch _ | set _ | prepare _ | listen _ | explain _ _ => exact nil_subset _

/-- What a statement leaves in the ways that the test does not look for: the tables of an
`EXPLAIN ANALYZE`, an `UPDATE` of `pg_settings`, and calls whose names an escape hides. -/
def hiddenLeaves (s : Statement) : List Leftover :=
  match s with
  | .query _ body => (if s.writesSettings then [.setting] else []) ++ escapedLeave body
  | .explain true e =>
    (if e.createsTable then [.table] else []) ++
      ((if e.writesSettings then [.setting] else []) ++ escapedLeave (queryOf e))
  | _ => []

theorem hiddenLeaves_eq_nil {s : Statement} (h : s.leaves = []) : hiddenLeaves s = [] := by
  cases s with
  | query lead body =>
    obtain ⟨-, hsettings, hcalls⟩ := (append_eq_nil_iff.1 h).imp id append_eq_nil_iff.1
    rw [hiddenLeaves, hsettings, escapedLeave_eq_nil hcalls]
    rfl
  | explain analyze e =>
    cases analyze with
    | false => rfl
    | true =>
      cases e with
      | query lead body | createTempAs table body =>
        obtain ⟨htable, hsettings, hcalls⟩ := (append_eq_nil_iff.1 h).imp id append_eq_nil_iff.1
        have hescaped := escapedLeave_eq_nil hcalls
        simp only [hiddenLeaves, queryOf, htable, hsettings, hescaped, List.append_nil]
      | declareHold cursor body => exact escapedLeave_eq_nil h
      | showSetting _ | fetch _ | set _ | prepare _ | listen _ | explain _ _ => rfl
  | createTempAs _ _ | declareHold _ _ | showSetting _ | fetch _ | set _ | prepare _ | listen _ =>
    rfl

structure LowerWord (k : String) : Prop where
  spelled : Spelled k
  lower : k.toList.map Char.toLower = k.toList

/-- The word `k` is one that the test lets pass. -/
def IsNeutral (k : String) : Prop :=
  ∃ n ∈ neutralLeads, k.toList.map Char.toLower = n.toList.map Char.toLower

theorem queryLead_neutral (lead : QueryLead) :
    ∃ k, (Tok.word lead.word).isWord k ∧ LowerWord k ∧ IsNeutral k := by
  cases lead with
  | select => exact ⟨"select", rfl, ⟨by decide, by decide⟩, "SELECT", by decide, by decide⟩
  | «with» => exact ⟨"with", rfl, ⟨by decide, by decide⟩, "WITH", by decide, by decide⟩
  | insert => exact ⟨"insert", rfl, ⟨by decide, by decide⟩, "INSERT", by decide, by decide⟩
  | update => exact ⟨"update", rfl, ⟨by decide, by decide⟩, "UPDATE", by decide, by decide⟩
  | delete => exact ⟨"delete", rfl, ⟨by decide, by decide⟩, "DELETE", by decide, by decide⟩
  | values => exact ⟨"values", rfl, ⟨by decide, by decide⟩, "VALUES", by decide, by decide⟩
  | table => exact ⟨"table", rfl, ⟨by decide, by decide⟩, "TABLE", by decide, by decide⟩

theorem tokens_lead (s : Statement) : ∃ k t ts, s.tokens = t :: ts ∧ t.isWord k ∧ LowerWord k := by
  cases s with
  | query lead body =>
    obtain ⟨k, ht, hk, -⟩ := queryLead_neutral lead
    exact ⟨k, _, _, rfl, ht, hk⟩
  | showSetting body => exact ⟨"show", _, _, rfl, rfl, by decide, by decide⟩
  | fetch body => exact ⟨"fetch", _, _, rfl, rfl, by decide, by decide⟩
  | createTempAs table body => exact ⟨"create", _, _, rfl, rfl, by decide, by decide⟩
  | set body => exact ⟨"set", _, _, rfl, rfl, by decide, by decide⟩
  | prepare body => exact ⟨"prepare", _, _, rfl, rfl, by decide, by decide⟩
  | declareHold cursor body => exact ⟨"declare", _, _, rfl, rfl, by decide, by decide⟩
  | listen channel => exact ⟨"listen", _, _, rfl, rfl, by decide, by decide⟩
  | explain analyze explained => exact ⟨"explain", _, _, rfl, rfl, by decide, by decide⟩

theorem trim_layout_ne_nil {s : Statement} (h : IsLayout s.tokens text) : trim text ≠ [] := by
  intro hempty
  obtain ⟨k, t, ts, htokens, ht, hk⟩ := tokens_lead s
  rw [htokens] at h
  obtain ⟨g, w, rest, -, hw, rfl⟩ := layout_front h
  have hfirm := firm_of_keyword hk.spelled (written_keyword ht hw hk.lower)
  obtain ⟨r, -, hcore⟩ := statementCore_append hfirm g rest
  rw [statementCore, hempty] at hcore
  have hnone : trimStart g ++ (w ++ r) = [] := hcore.symm
  simp only [append_eq_nil_iff] at hnone
  exact hfirm.ne_nil hnone.2.1

theorem isKeyword_recase {k' : String} (hs : k.toList.map Char.toLower = k'.toList.map Char.toLower)
    (hw : IsKeyword k w) : IsKeyword k' w := by
  rw [IsKeyword, eqIgnoreCase, beq_iff_eq] at hw ⊢
  rw [hw, hs]

/-- A `SELECT` or `WITH` that creates a table is noticed. -/
theorem not_hasInto {body : List Tok} {selecting : Bool}
    (h : IsLayout (t :: body) text) (ht : t.isWord k) (hk : LowerWord k)
    (hcase : k = "select" ∨ k = "with") (hu : Unsuspicious (statementCore text)) :
    hasInto selecting 0 none body = false := by
  rw [Bool.eq_false_iff]
  intro hinto
  obtain ⟨w, r, hw, hcore⟩ := core_of_lead h ht hk.spelled hk.lower hu.uncommented
  have hfront : startsWithCi (statementCore text) "SELECT" ∨
      startsWithCi (statementCore text) "WITH" := by
    rw [hcore]
    rcases hcase with rfl | rfl
    · exact .inl (startsWithCi_append (isKeyword_recase (by decide) hw) r)
    · exact .inr (startsWithCi_append (isKeyword_recase (by decide) hw) r)
  have hany : (t :: body).any (Tok.isWord "into") := by
    rw [any_cons, any_isWord_of_hasInto hinto, Bool.or_true]
  have hword := containsWordCi_of_layout h (by decide : Spelled "into") (by decide) hany
  rw [hu.into hfront] at hword
  cases hword

/-- What a statement leaves that the test takes to leave nothing, it leaves in a way that
the test does not look for. -/
theorem leaves_eq_nil {s : Statement} (h : IsLayout s.tokens text)
    (hlead : HasNeutralLead (statementCore text)) (hu : Unsuspicious (statementCore text))
    (hhidden : hiddenLeaves s = []) : s.leaves = [] := by
  cases s with
  | query lead body =>
    obtain ⟨hsettings, hescaped⟩ := append_eq_nil_iff.1 hhidden
    have hcalls := callsLeave_eq_nil h (queryOf_subset _) hescaped hu.clean
    have htable : (Statement.query lead body).createsTable = false := by
      cases lead with
      | select => exact not_hasInto h rfl ⟨by decide, by decide⟩ (.inl rfl) hu
      | «with» => exact not_hasInto h rfl ⟨by decide, by decide⟩ (.inr rfl) hu
      | insert | update | delete | values | table => rfl
    have hbody : callsLeave body = [] := hcalls
    rw [Statement.leaves, Statement.leavesRun, hsettings, hbody, htable]
    rfl
  | showSetting _ | fetch _ => rfl
  | createTempAs table body =>
    exact absurd hlead
      (not_hasNeutralLead (k := "create") h rfl (by decide) (by decide) (by decide))
  | set body =>
    exact absurd hlead (not_hasNeutralLead (k := "set") h rfl (by decide) (by decide) (by decide))
  | prepare body =>
    exact absurd hlead
      (not_hasNeutralLead (k := "prepare") h rfl (by decide) (by decide) (by decide))
  | declareHold cursor body =>
    exact absurd hlead
      (not_hasNeutralLead (k := "declare") h rfl (by decide) (by decide) (by decide))
  | listen channel =>
    exact absurd hlead
      (not_hasNeutralLead (k := "listen") h rfl (by decide) (by decide) (by decide))
  | explain analyze e =>
    cases analyze with
    | false => rfl
    | true =>
      obtain ⟨htable, hsettings, hescaped⟩ :=
        (append_eq_nil_iff.1 hhidden).imp id append_eq_nil_iff.1
      have hbody : queryOf e ⊆ (Statement.explain true e).tokens := fun t ht =>
        mem_cons_of_mem _ (mem_append_right _ (queryOf_subset e ht))
      have hcalls := callsLeave_eq_nil h hbody hescaped hu.clean
      cases e with
      | query lead body | createTempAs table body =>
        have hrun : callsLeave body = [] := hcalls
        simp only [Statement.leaves, Statement.leavesExplained, Statement.leavesRun,
          htable, hsettings, hrun, List.append_nil, ↓reduceIte]
      | declareHold cursor body => exact hcalls
      | showSetting _ | fetch _ | set _ | prepare _ | listen _ | explain _ _ => rfl

/-- A query and an `EXPLAIN` start with a word that the test lets pass. -/
theorem hasNeutralLead_of_hidden {s : Statement} (h : IsLayout s.tokens text)
    (hbare : (statementCore text).head? ≠ some '-' ∧ (statementCore text).head? ≠ some '/')
    (hhidden : hiddenLeaves s ≠ []) : HasNeutralLead (statementCore text) := by
  have hstarts : ∀ {t : Tok} {ts : List Tok} {k : String}, IsLayout (t :: ts) text → t.isWord k →
      LowerWord k → IsNeutral k → HasNeutralLead (statementCore text) := by
    rintro t ts k h ht hk ⟨n, hn, hcase⟩
    obtain ⟨w, r, hw, hcore⟩ := core_of_lead h ht hk.spelled hk.lower hbare
    exact ⟨n, hn, by rw [hcore]; exact startsWithCi_append (isKeyword_recase hcase hw) r⟩
  cases s with
  | query lead body =>
    obtain ⟨k, ht, hk, hn⟩ := queryLead_neutral lead
    exact hstarts h ht hk hn
  | explain analyze e =>
    exact hstarts (k := "explain") h rfl ⟨by decide, by decide⟩ ⟨"EXPLAIN", by decide, by decide⟩
  | createTempAs _ _ | declareHold _ _ | showSetting _ | fetch _ | set _ | prepare _ | listen _ =>
    exact absurd rfl hhidden

def plainText : Tok → Str
  | .word n => n
  | .quoted n => '"' :: n.flatMap (fun c => if c = '"' then ['"', '"'] else [c]) ++ ['"']
  | .unicode e b => 'U' :: '&' :: '"' :: b ++ '"' :: (" UESCAPE '" ++ [e, '\''])
  | .lparen => ['(']
  | .rparen => [')']
  | .comma => [',']
  | .dot => ['.']
  | .other t => t

def spacedText (ts : List Tok) : Str := ts.flatMap fun t => plainText t ++ [' ']

theorem isLayout_spacedText (ts : List Tok) : IsLayout ts (spacedText ts) := by
  have hlaid : TokensLaid ts (spacedText ts) := by
    induction ts with
    | nil => exact .nil
    | cons t ts ih =>
      have hw : t.Written (plainText t) := by
        cases t with
        | word n => exact beq_self_eq_true _
        | unicode e b =>
          exact ⟨'U', _, .inl rfl, rfl, .inr ⟨[' '], "UESCAPE", [' '], .blank rfl .nil,
            .blank rfl .nil, by decide, rfl⟩⟩
        | quoted _ | lparen | rparen | comma | dot | other _ => rfl
      have hcons := TokensLaid.cons (g := [' ']) hw (.blank rfl .nil) (fun h => nomatch h) ih
      rwa [← append_assoc] at hcons
  exact .bare .nil hlaid

/-- `EXPLAIN ANALYZE DELETE FROM t`. -/
def explainDelete : Statement :=
  .explain true (.query .delete [.word "from", .word "t"])

/-- `EXPLAIN ANALYZE SELECT * INTO TEMP t FROM u`. -/
def explainSelectInto : Statement :=
  .explain true (.query .select [.other "*", .word "into", .word "temp",
    .word "t", .word "from", .word "u"])

/-- A call of `set_config` whose name is written with an escape, and an `UPDATE` of
`pg_settings`, change a setting unnoticed. -/
example :
    let s : Statement := .query .select [.unicode '!' "!0073et_config", .lparen,
      .other "'search_path'", .comma, .other "''", .comma, .word "false", .rparen]
    let u : Statement := .query .update [.word "pg_settings", .word "set",
      .word "setting", .other "= 'off'"]
    (stmtLeavesSessionState (spacedText s.tokens) = false ∧ s.leaves = [.setting]) ∧
      stmtLeavesSessionState (spacedText u.tokens) = false ∧ u.leaves = [.setting] := by
  decide

end HeliosProxy.Pool
