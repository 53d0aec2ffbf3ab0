import HeliosProxy.Text.Tables

/-!
# Reading plain names

What the lexer, the table pattern and the loop over its matches do with an
unquoted ASCII name between characters that cannot continue it.
-/

namespace HeliosProxy.Text

open Regex List Char

def plainChar (c : Char) : Bool := c.isLower || c.isDigit || c == '_'

@[mk_iff]
structure PlainName (t : Str) : Prop where
  nonempty : t ≠ []
  start : t.head?.all (fun c => !c.isDigit) = true
  chars : t.all plainChar = true
  short : t.length ≤ 63

instance (t : Str) : Decidable (PlainName t) := decidable_of_iff' _ (plainName_iff t)

theorem plainName_t : PlainName "t" := by decide

/-! ## Characters -/

theorem isAscii_of_plainChar {c : Char} (h : plainChar c) : isAscii c := by
  simp only [plainChar, Bool.or_eq_true, beq_iff_eq] at h
  rcases h with (h | h) | rfl
  · simp only [isLower, Bool.and_eq_true, decide_eq_true_eq] at h
    have := UInt32.le_iff_toNat_le.mp h.2
    simp only [isAscii, decide_eq_true_eq]
    exact lt_of_le_of_lt this (by decide)
  · simp only [isDigit, Bool.and_eq_true, decide_eq_true_eq] at h
    have := UInt32.le_iff_toNat_le.mp h.2
    simp only [isAscii, decide_eq_true_eq]
    exact lt_of_le_of_lt this (by decide)
  · decide

theorem plainChar_forall (P : Char → Prop)
    (h : ∀ n < 128, plainChar (ofNat n) → P (ofNat n)) {c : Char}
    (hc : plainChar c) : P c := by
  have hlt : c.toNat < 128 := by simpa [isAscii] using isAscii_of_plainChar hc
  have := h c.toNat hlt
  rw [ofNat_toNat] at this
  exact this hc

section PlainChar

variable {c : Char} (h : plainChar c = true)
include h

theorem nameChar_of_plain : nameChar c :=
  plainChar_forall (fun c => nameChar c = true) (by decide) h

theorem gapChar_of_plain : gapChar c = false :=
  plainChar_forall (fun c => gapChar c = false) (by decide) h

theorem isWhitespace_of_plain : isWhitespace c = false :=
  plainChar_forall (fun c => isWhitespace c = false) (by decide) h

theorem identCont_of_plain : identCont c :=
  plainChar_forall (fun c => identCont c = true) (by decide) h

theorem caseFold_of_plain : caseFold c = c :=
  plainChar_forall (fun c => caseFold c = c) (by decide) h

theorem toLower_of_plain : c.toLower = c :=
  plainChar_forall (fun c => c.toLower = c) (by decide) h

theorem utf8Size_of_plain : c.utf8Size = 1 :=
  plainChar_forall (fun c => c.utf8Size = 1) (by decide) h

theorem not_punctuation_of_plain : c ∉ ".$-/(;".toList :=
  plainChar_forall (fun c => c ∉ ".$-/(;".toList) (by decide) h

theorem nameStart_of_plain (hd : c.isDigit = false) : nameStart c := by
  revert hd
  exact plainChar_forall (fun c => c.isDigit = false → nameStart c = true) (by decide) h

end PlainChar

/-! ## The table pattern -/

/-- A text the pattern reads as one name part, and that is not `ONLY`. -/
structure NameText (t : Str) : Prop where
  start : ∃ a t', t = a :: t' ∧ nameStart a = true
  chars : ∀ c ∈ t, nameChar c = true ∧ gapChar c = false
  notOnly : t.map caseFold ≠ "only"

/-- Where a name ends: before a text that neither continues it nor adds a
dotted part. -/
structure NameEnd (tail : Str) : Prop where
  stops : ∀ c ∈ tail.head?, nameChar c = false
  noDot : ∀ w rest, tail = w ++ '.' :: rest → w.all isWhitespace = false

theorem nameChar_of_sameLetter {a c : Char} (ha : (caseFold a).isLower)
    (h : sameLetter a c) : nameChar c := by
  rw [sameLetter, beq_iff_eq] at h
  rw [nameChar, nameStart, ← h, ha]
  rfl

variable {t tail w rest : Str}

theorem split_of_run (h : t ++ tail = w ++ rest)
    (hw : ∀ c ∈ w, nameChar c) (htail : ∀ c ∈ tail.head?, nameChar c = false) :
    ∃ t', t = w ++ t' ∧ rest = t' ++ tail := by
  rcases append_eq_append_iff.mp h with ⟨x, hx, htl⟩ | ⟨x, hx, hrest⟩
  · cases x with
    | nil =>
      refine ⟨[], by simpa using hx.symm, by simpa using htl.symm⟩
    | cons a x =>
      have hin := hw a (by rw [hx]; simp)
      have hout := htail a (by rw [htl]; rfl)
      rw [hin] at hout
      cases hout
  · exact ⟨x, hx, hrest⟩

variable {c : Cursor Char}

theorem forall₂_of_mem_run_keyword {kw : String} {d : Cursor Char} (h : d ∈ run (keyword kw) c) :
    ∃ w, c.rest = w ++ d.rest ∧ Forall₂ (fun a c => sameLetter a c) kw.toList w := by
  obtain ⟨w, hw, hall⟩ := mem_run_word h
  exact ⟨w, hw, forall₂_map_left_iff.mp hall⟩

theorem nameChar_of_forall₂ {kw : Str} (hkw : ∀ a ∈ kw, (caseFold a).isLower)
    (h : Forall₂ (fun a c => sameLetter a c) kw w) : ∀ c ∈ w, nameChar c := by
  induction h with
  | nil => simp
  | cons hab _ ih =>
    intro c hc
    rcases mem_cons.mp hc with rfl | hc
    · exact nameChar_of_sameLetter (hkw _ mem_cons_self) hab
    · exact ih (fun a ha => hkw a (mem_cons_of_mem _ ha)) c hc

theorem map_caseFold_of_forall₂ {kw : Str}
    (h : Forall₂ (fun a c => sameLetter a c) kw w) :
    w.map caseFold = kw.map caseFold := by
  induction h with
  | nil => rfl
  | cons hab _ ih =>
    rw [map_cons, map_cons, ih, beq_iff_eq.mp hab]

/-- No `ONLY` is read in front of another name. -/
theorem run_onlyWord (ht : NameText t) (htail : NameEnd tail) (i : Nat)
    (caps : List (Nat × Nat × Nat)) : run onlyWord ⟨i, t ++ tail, caps⟩ = [] := by
  refine run_seq_eq_nil fun d hd => ?_
  obtain ⟨w, hw, hall⟩ := forall₂_of_mem_run_keyword hd
  obtain ⟨t', rfl, hrest⟩ := split_of_run hw (nameChar_of_forall₂ (all_iff_forall_prop.1 (by decide)) hall) htail.stops
  cases t' with
  | nil =>
    rw [List.append_nil] at ht
    exact absurd (map_caseFold_of_forall₂ hall) ht.notOnly
  | cons b t' =>
    have hb := (ht.chars b (by simp)).2
    simp only [gapChar, Bool.or_eq_false_iff, beq_eq_false_iff_ne] at hb
    simp [run, plus, hrest, hb.1, hb.2, runStar]

theorem head?_run_dottedName (ht : NameText t) (htail : NameEnd tail) (i : Nat)
    (caps : List (Nat × Nat × Nat)) :
    (run dottedName ⟨i, t ++ tail, caps⟩).head? = some ⟨i + t.length, tail, caps⟩ := by
  obtain ⟨a, t', rfl, ha⟩ := ht.start
  have hchars : ∀ c ∈ t', nameChar c := fun c hc => (ht.chars c (mem_cons_of_mem _ hc)).1
  obtain ⟨shorter, hstar⟩ := runStar_append hchars htail.stops (i + 1) caps
  have hpart : run namePart ⟨i, a :: t' ++ tail, caps⟩ =
      ⟨i + 1 + t'.length, tail, caps⟩ :: shorter := by
    simp [namePart, run, ha, hstar]
  have hdots : ∀ n, (run (upTo (.seq (.star isWhitespace) (.seq (.cls fun c => c == '.')
      (.seq (.star isWhitespace) namePart))) n) ⟨i + 1 + t'.length, tail, caps⟩).head? =
        some ⟨i + 1 + t'.length, tail, caps⟩ := by
    intro n
    cases n with
    | zero => rfl
    | succ n =>
      rw [upTo, head?_run_opt_of_nil, head?_cons]
      refine run_seq_eq_nil fun d hd => ?_
      rw [run, mem_flatMap] at hd
      obtain ⟨e, he, hd⟩ := hd
      obtain ⟨w, hw, hspace, _, _⟩ := mem_runStar he
      rw [run, mem_flatMap] at hd
      obtain ⟨f, hf, _⟩ := hd
      rw [run] at hf
      split at hf
      · cases hf
      next b rest hrest =>
        split at hf
        next hb =>
          obtain rfl := beq_iff_eq.mp hb
          have := htail.noDot w rest (hrest ▸ hw)
          rw [List.all_eq_true.mpr hspace] at this
          cases this
        · cases hf
  have hlen : i + (a :: t').length = i + 1 + t'.length := by
    rw [length_cons]
    omega
  rw [hlen]
  exact head?_run_seq hpart (hdots 2)

theorem head?_run_targetPattern (ht : NameText t) (htail : NameEnd tail) (i : Nat)
    (caps : List (Nat × Nat × Nat)) :
    (run targetPattern ⟨i, ' ' :: (t ++ tail), caps⟩).head? =
      some ⟨i + 1 + t.length, tail, (2, i + 1, i + 1 + t.length) :: caps⟩ := by
  obtain ⟨a, t', rfl, _⟩ := ht.start
  have hgap : gapChar a = false := (ht.chars a mem_cons_self).2
  have hplus : run (plus gapChar) ⟨i, ' ' :: (a :: t' ++ tail), caps⟩ =
      [⟨i + 1, a :: t' ++ tail, caps⟩] := by
    simp [plus, run, runStar, hgap, show gapChar ' ' by decide]
  refine head?_run_seq hplus (head?_run_seq
    (head?_run_opt_of_nil (run_onlyWord ht htail (i + 1) caps)) ?_)
  exact head?_run_group (head?_run_dottedName ht htail (i + 1) caps)

theorem startsIn_insertWords : StartsIn isWhitespace insertWords := by
  have hword : ∀ r, StartsIn isWhitespace (.seq (plus isWhitespace) r) :=
    startsIn_plus_seq isWhitespace
  exact ((hword _).alt (hword _)).opt.seq ((hword _).opt.seq ((hword _).opt.seq (hword _).opt))

variable {ks : List String}

/-- A match starts with one of the keywords and a character of the gap: the
optional words of an `INSERT` start with whitespace, which is one too. -/
theorem run_tablePattern_ne_nil
    (h : run (tablePattern ks) c ≠ []) :
    ∃ kw ∈ ks ++ ["INSERT"], ∃ w g rest, c.rest = w ++ g :: rest ∧
      Forall₂ (fun a c => sameLetter a c) kw.toList w ∧ gapChar g := by
  obtain ⟨e, he⟩ := exists_mem_of_ne_nil _ h
  rw [tablePattern, run, mem_flatMap] at he
  obtain ⟨d', hd', he⟩ := he
  rw [run, List.mem_map] at hd'
  obtain ⟨d, hd, rfl⟩ := hd'
  obtain ⟨g, rest, hrest, hg⟩ : ∃ g rest, d.rest = g :: rest ∧ gapChar g := by
    rw [targetPattern, run, mem_flatMap] at he
    obtain ⟨f, hf, _⟩ := he
    obtain ⟨g, rest, hrest, hg⟩ := run_plus_ne_nil (ne_nil_of_mem hf)
    exact ⟨g, rest, hrest, hg⟩
  clear he h
  induction ks with
  | nil =>
    refine ⟨"INSERT", by simp, ?_⟩
    rw [alternatives, insertKeyword, run, mem_flatMap] at hd
    obtain ⟨f, hf, hd⟩ := hd
    obtain ⟨w, hw, hall⟩ := forall₂_of_mem_run_keyword hf
    rcases startsIn_insertWords f d hd with hsame | ⟨b, rest', hb, hspace⟩
    · exact ⟨w, g, rest, by rw [hw, ← hsame, hrest], hall, hg⟩
    · exact ⟨w, b, rest', by rw [hw, hb], hall, by simp [gapChar, hspace]⟩
  | cons k ks ih =>
    rcases mem_append.mp hd with hd | hd
    · obtain ⟨w, hw, hall⟩ := forall₂_of_mem_run_keyword hd
      exact ⟨k, by simp, w, g, rest, by rw [hw, hrest], hall, hg⟩
    · obtain ⟨kw, hkw, hfound⟩ := ih hd
      exact ⟨kw, mem_cons_of_mem _ hkw, hfound⟩

def TableKeywords (ks : List String) : Prop := ks = cacheKeywords ∨ ks = edgeKeywords

theorem TableKeywords.letters (h : TableKeywords ks) :
    ∀ kw ∈ ks ++ ["INSERT"], 4 ≤ kw.toList.length ∧
      ∀ a ∈ kw.toList, (caseFold a).isLower := by
  have hall : ((ks ++ ["INSERT"]).all fun kw =>
      decide (4 ≤ kw.toList.length) && kw.toList.all fun a => (caseFold a).isLower) := by
    rcases h with rfl | rfl <;> decide
  intro kw hkw
  have hkw := List.all_eq_true.1 hall kw hkw
  rw [Bool.and_eq_true, decide_eq_true_iff, List.all_eq_true] at hkw
  exact hkw

variable {s : Str}

theorem run_tablePattern_of_isChain (hks : TableKeywords ks) {u v : Str}
    (h : s.IsChain fun a b => ¬ (nameChar a ∧ gapChar b)) (huv : s = u ++ v) (i : Nat) :
    run (tablePattern ks) ⟨i, v, []⟩ = [] := by
  by_contra hne
  obtain ⟨kw, hkw, w, g, rest, hrest, hall, hg⟩ := run_tablePattern_ne_nil hne
  obtain ⟨hlong, hletters⟩ := hks.letters kw hkw
  have hw : w ≠ [] := by
    rintro rfl
    rw [hall.length_eq] at hlong
    cases hlong
  obtain ⟨w', a, rfl⟩ : ∃ w' a, w = w' ++ [a] := ⟨w.dropLast, w.getLast hw,
    (dropLast_append_getLast hw).symm⟩
  have hname := nameChar_of_forall₂ hletters hall a (by simp)
  have hsplit : s = (u ++ w') ++ a :: g :: rest := by
    rw [huv, show v = w' ++ [a] ++ g :: rest from hrest]
    simp
  rw [hsplit, isChain_append_cons_cons] at h
  exact h.2.1 ⟨hname, hg⟩

/-! ## A list of names after `FROM` -/

/-- `SELECT * FROM t, u, …`. -/
def readOf (t : Str) (ts : List Str) : Str :=
  "SELECT * FROM ".toList ++ (t ++ ts.flatMap fun u => ", ".toList ++ u)

theorem PlainName.nameText (h : PlainName t) (ho : t ≠ "only") : NameText t where
  start := by
    cases t with
    | nil => exact absurd rfl h.nonempty
    | cons a t =>
      have ha : plainChar a := List.all_eq_true.mp h.chars a mem_cons_self
      exact ⟨a, t, rfl, nameStart_of_plain ha (by simpa using h.start)⟩
  chars c hc := by
    have := List.all_eq_true.mp h.chars c hc
    exact ⟨nameChar_of_plain this, gapChar_of_plain this⟩
  notOnly := by
    rwa [map_congr_left fun c hc => caseFold_of_plain (List.all_eq_true.mp h.chars c hc),
      List.map_id']

theorem nameEnd_commas (ts : List Str) : NameEnd (ts.flatMap fun u => ", " ++ u) where
  stops := by
    cases ts with
    | nil => simp
    | cons u ts =>
      intro c hc
      obtain rfl : c = ',' := by simpa using hc.symm
      decide
  noDot := by
    intro w rest h
    cases ts with
    | nil => simp at h
    | cons u ts =>
      cases w with
      | nil => simp at h
      | cons a w =>
        obtain rfl : ',' = a := (List.cons.inj h).1
        rfl

theorem isChain_of_gapChar (h : ∀ c ∈ s, gapChar c = false) :
    s.IsChain fun a b => ¬ (nameChar a ∧ gapChar b) := by
  induction s with
  | nil => exact .nil
  | cons a s ih =>
    refine isChain_cons.mpr ⟨?_, ih fun c hc => h c (mem_cons_of_mem _ hc)⟩
    rintro b hb ⟨_, hgap⟩
    rw [h b (mem_cons_of_mem _ (mem_of_mem_head? hb))] at hgap
    cases hgap

variable {ts : List Str}

theorem isChain_names (ht : NameText t) (hts : ∀ u ∈ ts, NameText u) :
    (t ++ ts.flatMap fun u => ", ".toList ++ u).IsChain
      fun a b => ¬ (nameChar a ∧ gapChar b) := by
  induction ts generalizing t with
  | nil => simpa using isChain_of_gapChar fun c hc => (ht.chars c hc).2
  | cons u ts ih =>
    have hname := isChain_of_gapChar fun c hc => (ht.chars c hc).2
    have hrest := ih (hts u mem_cons_self) fun v hv => hts v (mem_cons_of_mem _ hv)
    refine isChain_append.mpr ⟨hname, ?_, ?_⟩
    · refine isChain_cons_cons.mpr ⟨by decide, isChain_cons.mpr ⟨?_, hrest⟩⟩
      rintro c _ ⟨hspace, _⟩
      exact absurd hspace (by decide)
    · rintro a _ b hb ⟨_, hgap⟩
      obtain rfl : ',' = b := Option.some.inj hb
      exact absurd hgap (by decide)

/-- Nothing is found in front of the `FROM`. -/
theorem find_select (hks : TableKeywords ks) (s : Str) :
    find (tablePattern ks) 0 ('S' :: 'E' :: 'L' :: 'E' :: 'C' :: 'T' :: ' ' :: '*' :: ' ' :: s) =
      find (tablePattern ks) 9 s := by
  rcases hks with rfl | rfl <;>
  · iterate 9
      refine (find_cons_of_nil ?_).trans ?_
      · rfl
    rfl

theorem find_readOf (hks : TableKeywords ks) (ht : NameText t)
    (ts : List Str) :
    find (tablePattern ks) 0 (readOf t ts) =
      some ⟨14 + t.length, ts.flatMap fun u => ", ".toList ++ u,
        [(2, 14, 14 + t.length), (1, 9, 13)]⟩ := by
  have hkeyword : run (.group 1 (alternatives ks))
      ⟨9, "FROM ".toList ++ (t ++ ts.flatMap fun u => ", ".toList ++ u), []⟩ =
        [⟨13, ' ' :: (t ++ ts.flatMap fun u => ", ".toList ++ u), [(1, 9, 13)]⟩] := by
    rcases hks with rfl | rfl <;> rfl
  refine (find_select hks ("FROM ".toList ++ (t ++ ts.flatMap fun u => ", ".toList ++ u))).trans ?_
  exact find_of_head? (head?_run_seq hkeyword
    (head?_run_targetPattern ht (nameEnd_commas ts) 13 [(1, 9, 13)]))

/-! ## The loop over the matches -/

section Loop

variable {U : UnicodeTables} {ks : List String} {text : Str} {fuel i : Nat} {pattern : Regex Char}

theorem tableMatchesFrom_of_none (h : find pattern i (text.drop i) = none) :
    tableMatchesFrom U pattern text fuel i = [] := by
  cases fuel with
  | zero => rfl
  | succ fuel => rw [tableMatchesFrom, h]

theorem tableMatchesFrom_of_some {kstart kend tend : Nat}
    (h : find pattern i (text.drop i) =
      some ⟨tend, rest, [(2, kend + 1, tend), (1, kstart, kend)]⟩)
    (hbefore : endsIdentifier U text kstart = false)
    (hgap : slice text kend (kend + 1) = [' ']) :
    tableMatchesFrom U pattern text (fuel + 1) i =
      (slice text kstart kend, slice text (kend + 1) tend) ::
        tableMatchesFrom U pattern text fuel kend := by
  rw [tableMatchesFrom, h]
  simp only [Cursor.extent, List.lookup, Nat.reduceBEq, hbefore, hgap]
  simp

theorem tableMatches_readOf (hks : TableKeywords ks) (ht : NameText t)
    (hts : ∀ u ∈ ts, NameText u) :
    tableMatches U (tablePattern ks) (readOf t ts) = [("FROM".toList, t)] := by
  have hrest : find (tablePattern ks) 13 ((readOf t ts).drop 13) = none := by
    refine find_eq_none fun u v huv => ?_
    have hchain : ((readOf t ts).drop 13).IsChain
        fun a b => ¬ (nameChar a ∧ gapChar b) := by
      refine isChain_cons.mpr ⟨?_, isChain_names ht hts⟩
      rintro c _ ⟨hspace, _⟩
      exact absurd hspace (by decide)
    exact run_tablePattern_of_isChain hks hchain huv _
  have hfind : find (tablePattern ks) 0 ((readOf t ts).drop 0) = _ := find_readOf hks ht ts
  have hspace : endsIdentifier U (readOf t ts) 9 = false := by
    change (U.isAlphabetic ' ' || ' ' == '_') = false
    rw [U.isAlphabetic_ascii ' ' rfl]
    rfl
  rw [tableMatches, tableMatchesFrom_of_some hfind hspace rfl,
    tableMatchesFrom_of_none hrest]
  have hname : slice (readOf t ts) 14 (14 + t.length) = t := by
    rw [slice, Nat.add_sub_cancel_left]
    exact take_left
  rw [hname]
  rfl

/-- What every search from `lo` on finds holds of all matches from there on. -/
theorem forall_tableMatchesFrom {P : Str × Str → Prop} {lo : Nat}
    (h : ∀ i, lo ≤ i → ∀ c, find pattern i (text.drop i) = some c →
      ∃ kstart kend tstart tend, c.extent 1 = some (kstart, kend) ∧
        c.extent 2 = some (tstart, tend) ∧ lo ≤ kstart ∧ lo ≤ kend ∧
        P (slice text kstart kend, slice text tstart tend)) (hi : lo ≤ i) :
    ∀ m ∈ tableMatchesFrom U pattern text fuel i, P m := by
  induction fuel generalizing i with
  | zero => simp [tableMatchesFrom]
  | succ fuel ih =>
    rw [tableMatchesFrom]
    cases hfind : find pattern i (text.drop i) with
    | none => simp
    | some c =>
      obtain ⟨kstart, kend, tstart, tend, h1, h2, hks, hke, hP⟩ := h i hi c hfind
      simp only [h1, h2]
      intro m hm
      split at hm
      · exact ih (Nat.le_succ_of_le hks) m hm
      split at hm
      · exact ih hke m hm
      · rcases mem_cons.mp hm with rfl | hm
        · exact hP
        · exact ih hke m hm

end Loop

/-! ## An update of a name -/

/-- `UPDATE t SET x = 1`. -/
def updateOf (t : Str) : Str := "UPDATE " ++ (t ++ " SET x = 1")

theorem nameEnd_set : NameEnd " SET x = 1" where
  stops := by
    rintro c ⟨⟩
    rfl
  noDot w rest h := absurd (h ▸ mem_append_right w mem_cons_self) (by decide)

theorem nameText_set : NameText "SET" where
  start := ⟨'S', "ET", rfl, rfl⟩
  chars := all_iff_forall_prop.1 (by decide)
  notOnly := by decide

theorem nameEnd_x : NameEnd " x = 1" where
  stops := by
    rintro c ⟨⟩
    rfl
  noDot w rest h := absurd (h ▸ mem_append_right w mem_cons_self) (by decide)

def lowerKeywords : List Str :=
  ["from", "join", "into", "update", "table", "copy",
    "insert"]

theorem TableKeywords.lower (h : TableKeywords ks) :
    ∀ kw ∈ ks ++ ["INSERT"], kw.toList.map caseFold ∈ lowerKeywords := by
  rcases h with rfl | rfl <;> decide

section Update

variable {ks : List String} {t : Str}

section

variable (hks : TableKeywords ks)
include hks

theorem find_updateOf (ht : NameText t) : find (tablePattern ks) 0 (updateOf t) =
      some ⟨7 + t.length, " SET x = 1", [(2, 7, 7 + t.length), (1, 0, 6)]⟩ := by
  have hkeyword : run (.group 1 (alternatives ks)) ⟨0, updateOf t, []⟩ =
      [⟨6, ' ' :: (t ++ " SET x = 1"), [(1, 0, 6)]⟩] := by
    rcases hks with rfl | rfl <;> rfl
  exact find_of_head? (head?_run_seq hkeyword (head?_run_targetPattern ht nameEnd_set 6 [(1, 0, 6)]))

theorem run_set_eq_nil {x v : Str} (h : " SET x = 1" = x ++ v)
    (i : Nat) : run (tablePattern ks) ⟨i, v, []⟩ = [] := by
  by_contra hne
  obtain ⟨kw, hkw, w, g, rest, hv, hall, _⟩ := run_tablePattern_ne_nil hne
  obtain ⟨hlong, hletters⟩ := hks.letters kw hkw
  rw [hall.length_eq] at hlong
  have hnames : (v.take 4).all nameChar := by
    rw [show v = w ++ g :: rest from hv, take_append_of_le_length hlong]
    exact List.all_eq_true.mpr fun c hc =>
      nameChar_of_forall₂ hletters hall c (mem_of_mem_take hc)
  have hlen : 4 ≤ v.length := by
    rw [show v = w ++ g :: rest from hv, length_append]
    omega
  have hno : ∀ v ∈ " SET x = 1".toList.tails, ¬ (4 ≤ v.length ∧ (v.take 4).all nameChar) := by
    decide
  exact hno v ((mem_tails _ _).mpr ⟨x, h.symm⟩) ⟨hlen, hnames⟩

/-- The match at a keyword the name ends with takes `SET` for the table. -/
theorem head?_run_lowerKeyword (hw : w ∈ lowerKeywords) (i : Nat)
    (h : (run (tablePattern ks) ⟨i, w ++ " SET x = 1", []⟩).head? = some c) :
    c.extent 1 = some (i, i + w.length) ∧
      c.extent 2 = some (i + w.length + 1, i + w.length + 4) := by
  have hcaps : ∀ n rest, c = ⟨i + n + 1 + 3, rest, [(2, i + n + 1, i + n + 1 + 3), (1, i, i + n)]⟩ →
      c.extent 1 = some (i, i + n) ∧ c.extent 2 = some (i + n + 1, i + n + 4) := by
    rintro n rest rfl
    exact ⟨rfl, rfl⟩
  have hset := head?_run_targetPattern nameText_set nameEnd_x
  by_cases hcopy : run (.group 1 (alternatives ks)) ⟨i, w ++ " SET x = 1", []⟩ = []
  · rw [tablePattern, run, hcopy] at h
    cases h
  · have hkeyword : run (.group 1 (alternatives ks)) ⟨i, w ++ " SET x = 1", []⟩ =
        [⟨i + w.length, " SET x = 1", [(1, i, i + w.length)]⟩] := by
      simp only [lowerKeywords, mem_cons, not_mem_nil, or_false] at hw
      rcases hks with rfl | rfl <;> rcases hw with rfl | rfl | rfl | rfl | rfl | rfl | rfl <;>
        first | rfl | exact absurd rfl hcopy
    have hhead := head?_run_seq hkeyword (hset (i + w.length) [(1, i, i + w.length)])
    exact hcaps w.length _ (Option.some.inj (h.symm.trans hhead))

/-- Behind the first keyword the search finds only keywords that end the
name. -/
theorem find_behind_update (ht : PlainName t) {i : Nat} (hi : 6 ≤ i)
    (h : find (tablePattern ks) i ((updateOf t).drop i) = some c) :
    ∃ pre w, updateOf t = pre ++ (w ++ " SET x = 1") ∧ 6 ≤ pre.length ∧
      w ∈ lowerKeywords ∧ c.extent 1 = some (pre.length, pre.length + w.length) ∧
      c.extent 2 = some (pre.length + w.length + 1, pre.length + w.length + 4) := by
  obtain ⟨u, v, huv, hhead⟩ := find_eq_some h
  have hne : run (tablePattern ks) ⟨i + u.length, v, []⟩ ≠ [] := by
    intro hnil
    rw [hnil] at hhead
    cases hhead
  obtain ⟨kw, hkw, w, g, rest, hv, hall, hg⟩ := run_tablePattern_ne_nil hne
  obtain ⟨hlong, hletters⟩ := hks.letters kw hkw
  have hwname := nameChar_of_forall₂ hletters hall
  have hv' : v = w ++ g :: rest := hv
  have hlen : i ≤ (updateOf t).length := by
    by_contra hlt
    rw [drop_eq_nil_of_le (by omega)] at huv
    have := congrArg List.length huv
    rw [hv', length_nil, length_append, length_append] at this
    rw [hall.length_eq] at hlong
    omega
  have hpos : ((updateOf t).take i ++ u).length = i + u.length := by
    rw [length_append, length_take, min_eq_left hlen]
  have hsplit : updateOf t = ((updateOf t).take i ++ u) ++ v := by
    rw [append_assoc, ← huv, take_append_drop]
  have hfront : ∃ y, ' ' :: (t ++ " SET x = 1") = y ++ v := by
    refine ⟨((updateOf t).take i ++ u).drop 6, ?_⟩
    have hdrop := congrArg (List.drop 6) hsplit
    rw [drop_append_of_le_length (by omega)] at hdrop
    exact hdrop
  obtain ⟨y, hy⟩ := hfront
  have hw : v = w ++ " SET x = 1" ∧ w ∈ lowerKeywords := by
    cases y with
    | nil =>
      refine absurd ?_ hne
      rw [← (show _ = v from hy)]
      rcases hks with rfl | rfl <;> rfl
    | cons a y =>
      have hy' : t ++ " SET x = 1" = y ++ v := (List.cons.inj hy).2
      rcases append_eq_append_iff.mp hy' with ⟨x, _, hx⟩ | ⟨v', hx, hx'⟩
      · exact absurd (run_set_eq_nil hks hx _) hne
      · obtain ⟨t', hw, hrest⟩ := split_of_run (hx'.symm.trans hv') hwname nameEnd_set.stops
        cases t' with
        | nil =>
          rw [List.append_nil] at hw
          subst hw
          have hplain : ∀ c ∈ v', plainChar c := fun c hc =>
            List.all_eq_true.mp ht.chars c (by rw [hx]; exact mem_append_right _ hc)
          have hfold : v'.map caseFold = v' := by
            rw [map_congr_left fun c hc => caseFold_of_plain (hplain c hc), List.map_id']
          refine ⟨hx', ?_⟩
          rw [← hfold, map_caseFold_of_forall₂ hall]
          exact hks.lower kw hkw
        | cons b t' =>
          have hb : b ∈ t := by
            rw [hx, hw]
            simp
          obtain rfl : g = b := (List.cons.inj hrest).1
          rw [gapChar_of_plain (List.all_eq_true.mp ht.chars g hb)] at hg
          cases hg
  obtain ⟨hvw, hmem⟩ := hw
  rw [hvw, ← hpos] at hhead
  obtain ⟨h1, h2⟩ := head?_run_lowerKeyword hks hmem _ hhead
  exact ⟨_, w, hvw ▸ hsplit, by omega, hmem, h1, h2⟩

/-- The matches of an update: its table, and `SET` where the name ends with a
keyword after a digit. -/
theorem tableMatches_updateOf (U : UnicodeTables) (ht : PlainName t) (hn : NameText t) :
    ∃ ms, tableMatches U (tablePattern ks) (updateOf t) = ("UPDATE".toList, t) :: ms ∧
      ∀ m ∈ ms, m.1 ∈ lowerKeywords ∧ m.2 = "SET".toList := by
  have hfind : find (tablePattern ks) 0 ((updateOf t).drop 0) = _ := find_updateOf hks hn
  have hname : slice (updateOf t) 7 (7 + t.length) = t := by
    rw [slice, Nat.add_sub_cancel_left]
    exact take_left
  refine ⟨tableMatchesFrom U (tablePattern ks) (updateOf t) (updateOf t).length 6, ?_, ?_⟩
  · rw [tableMatches, tableMatchesFrom_of_some hfind rfl rfl, hname]
    rfl
  · refine forall_tableMatchesFrom (fun i hi c hc => ?_) (Nat.le_refl 6)
    obtain ⟨pre, w, htext, hpre, hw, h1, h2⟩ := find_behind_update hks ht hi hc
    refine ⟨_, _, _, _, h1, h2, hpre, by omega, ?_, ?_⟩
    · rw [htext, slice, drop_left, Nat.add_sub_cancel_left, take_left]
      exact hw
    · have hset : (updateOf t).drop (pre.length + w.length + 1) = "SET x = 1".toList := by
        rw [htext, Nat.add_assoc, ← drop_drop, drop_left, ← drop_drop, drop_left]
        rfl
      have hlen : pre.length + w.length + 4 - (pre.length + w.length + 1) = 3 := by omega
      change slice (updateOf t) (pre.length + w.length + 1) (pre.length + w.length + 4) = _
      rw [slice, hset, hlen]
      rfl

end

end Update

/-! ## The tables named -/

section Names

variable {U : UnicodeTables} {t : Str}

theorem splitOn_of_forall {sep : Char → Bool} (h : ∀ c ∈ s, sep c = false) :
    splitOn sep s = [s] := by
  induction s with
  | nil => rfl
  | cons c s ih =>
    rw [splitOn, h c mem_cons_self, ih fun d hd => h d (mem_cons_of_mem _ hd)]
    rfl

theorem trim_of_forall (h : ∀ c ∈ s, isWhitespace c = false) : trim s = s := by
  have hstart : ∀ s : Str, (∀ c ∈ s, isWhitespace c = false) → s.dropWhile isWhitespace = s := by
    intro s h
    cases s with
    | nil => rfl
    | cons c s => rw [dropWhile_cons, h c mem_cons_self]; rfl
  rw [trim, trimStart, hstart s h, trimEnd,
    hstart _ fun c hc => h c (mem_reverse.mp hc), reverse_reverse]

theorem tableName_of_plain (ht : PlainName t) : tableName U t = t := by
  have hplain : ∀ c ∈ t, plainChar c := List.all_eq_true.mp ht.chars
  have hdot : lastPart t = t := by
    have hsep : ∀ c ∈ t, (c == '.') = false := fun c hc =>
      beq_eq_false_iff_ne.mpr fun h => not_punctuation_of_plain (hplain c hc) (h ▸ by decide)
    rw [lastPart, splitOn_of_forall hsep]
    rfl
  have hbytes : byteLen t = t.length := by
    rw [byteLen, map_congr_left fun c hc => utf8Size_of_plain (hplain c hc)]
    simp
  rw [tableName, hdot, trim_of_forall fun c hc => isWhitespace_of_plain (hplain c hc),
    truncatedIdentifier, if_pos (hbytes ▸ ht.short),
    U.toLowercase_ascii t (List.all_eq_true.mpr fun c hc => isAscii_of_plainChar (hplain c hc)),
    map_congr_left fun c hc => toLower_of_plain (hplain c hc), List.map_id']

theorem foldlM_addTable {ms : List (Str × Str)} (h : ∀ m ∈ ms, skippedTarget m.1 m.2 = false)
    {tables : List Str} (hnodup : tables.Nodup) :
    ∃ named, ms.foldlM (fun tables (m : Str × Str) =>
        if skippedTarget m.1 m.2 then none else some (addTable U tables m.2)) tables = some named ∧
      named.Nodup ∧ ∀ u, u ∈ named ↔ u ∈ tables ∨ ∃ m ∈ ms, u = tableName U m.2 := by
  induction ms generalizing tables with
  | nil => exact ⟨tables, rfl, hnodup, by simp⟩
  | cons m ms ih =>
    obtain ⟨named, hfold, hnamed, hmem⟩ := ih (fun m hm => h m (mem_cons_of_mem _ hm))
      (Lists.nodup_addNew hnodup (tableName U m.2))
    refine ⟨named, ?_, hnamed, fun u => ?_⟩
    · rw [foldlM_cons, h m mem_cons_self]
      exact hfold
    · rw [hmem, Lists.mem_addNew, or_assoc]
      simp

end Names

/-! ## An update as one statement -/

theorem nextPiece_of_plain {c : Char} (hw : ∀ d ∈ c :: w, plainChar d)
    (hc : c.isDigit = false) (htail : tail.head?.all (!identCont ·)) :
    nextPiece c (w ++ tail) = (.text (c :: w), tail) := by
  have hplain := hw c mem_cons_self
  obtain ⟨hspace, hpunct⟩ : isSpace c = false ∧ c ∉ "-/'\"$.".toList :=
    plainChar_forall (fun c => isSpace c = false ∧ c ∉ "-/'\"$.".toList) (by decide) hplain
  have hstart : identStart c := by
    revert hc
    exact plainChar_forall (fun c => c.isDigit = false → identStart c = true) (by decide) hplain
  have htake := takeWhile_append_of_all (List.all_eq_true.mpr fun d hd =>
    identCont_of_plain (hw d (mem_cons_of_mem _ hd))) htail
  have hdollar : (c :: w).count '$' = 0 :=
    count_eq_zero.mpr fun h => not_punctuation_of_plain (hw _ h) (by decide)
  simp only [String.reduceToList, mem_cons, not_mem_nil, or_false, not_or] at hpunct
  obtain ⟨h1, h2, h3, h4, h5, h6⟩ := hpunct
  simp only [nextPiece, hspace, beq_eq_false_iff_ne.mpr h1, beq_eq_false_iff_ne.mpr h2,
    beq_eq_false_iff_ne.mpr h3, beq_eq_false_iff_ne.mpr h4, beq_eq_false_iff_ne.mpr h5,
    beq_eq_false_iff_ne.mpr h6, hc, hstart, Bool.false_and, Bool.false_eq_true, if_false, if_true,
    htake, wordPiece, hdollar]
  rfl

theorem decinteger_of_not_digit {c : Char} (h : c.isDigit = false) (s : Str) :
    decinteger (c :: s) = ([], c :: s) := by
  rw [decinteger.eq_def]
  split
  next heq =>
    cases heq
    rw [if_neg (by simp [h])]
  next heq =>
    cases heq
    rw [if_neg (by simp [h])]
  next heq => cases heq

theorem nextPiece_one (htail : tail = [] ∨ ∃ s, tail = ';' :: s) :
    nextPiece '1' tail = (.number ['1'], tail) := by
  have hdigits : decinteger ('1' :: tail) = (['1'], tail) := by
    obtain rfl | ⟨s, rfl⟩ := htail
    · rfl
    · rw [decinteger.eq_def]
      split
      next heq => exact absurd (List.cons.inj (List.cons.inj heq).2).1 (by decide)
      next heq =>
        cases heq
        rw [if_pos (by decide), decinteger_of_not_digit (by decide)]
      next heq => cases heq
  have hnext : nextPiece '1' tail = numberPiece ('1' :: tail) := rfl
  rw [hnext, numberPiece, numberText, hdigits]
  obtain rfl | ⟨s, rfl⟩ := htail <;> rfl

/-- The pieces of an update at the end of the text or in front of a
semicolon. -/
theorem piecesFuel_updateOf (ht : PlainName t)
    (htail : tail = [] ∨ ∃ s, tail = ';' :: s) (n : Nat) :
    piecesFuel (n + 11) (updateOf t ++ tail) =
      [.text "UPDATE", .space [' '], .text t, .space [' '], .text "SET",
        .space [' '], .text "x", .space [' '], .text "=", .space [' '],
        .number "1"] ++ piecesFuel n tail := by
  obtain ⟨c, w, rfl⟩ := exists_cons_of_ne_nil ht.nonempty
  have hplain := List.all_eq_true.mp ht.chars
  have hc : c.isDigit = false := by simpa using ht.start
  have hspace : isSpace c = false :=
    plainChar_forall (fun c => isSpace c = false) (by decide) (hplain c mem_cons_self)
  have hsplit : updateOf (c :: w) ++ tail =
      "UPDATE " ++ (c :: (w ++ (" SET x = 1" ++ tail))) := by
    unfold updateOf
    simp only [append_assoc, cons_append]
  have hgap : nextPiece ' ' (c :: (w ++ (" SET x = 1" ++ tail))) =
      (.space [' '], c :: (w ++ (" SET x = 1" ++ tail))) := by
    rw [nextPiece, takeWhile_cons, dropWhile_cons, hspace]
    rfl
  have hname : nextPiece c (w ++ (" SET x = 1" ++ tail)) = _ := nextPiece_of_plain hplain hc rfl
  have hfront : piecesFuel (n + 11)
        ("UPDATE " ++ (c :: (w ++ (" SET x = 1" ++ tail)))) =
      .text "UPDATE" :: (nextPiece ' ' (c :: (w ++ (" SET x = 1" ++ tail)))).1 ::
        piecesFuel (n + 9) (nextPiece ' ' (c :: (w ++ (" SET x = 1" ++ tail)))).2 := rfl
  have hback : piecesFuel (n + 8) (" SET x = 1" ++ tail) =
      [.space [' '], .text "SET", .space [' '], .text "x", .space [' '],
        .text "=", .space [' ']] ++ (nextPiece '1' tail).1 ::
          piecesFuel n (nextPiece '1' tail).2 := rfl
  rw [hsplit, hfront, hgap, piecesFuel, hname, hback, nextPiece_one htail]
  rfl

theorem length_updateOf (t : Str) : (updateOf t).length = t.length + 17 := by
  have hfront : "UPDATE ".toList.length = 7 := rfl
  have hback : " SET x = 1".toList.length = 10 := rfl
  unfold updateOf
  rw [length_append, length_append]
  omega

theorem pieces_updateOf (ht : PlainName t) :
    pieces (updateOf t) =
      [.text "UPDATE", .space [' '], .text t, .space [' '], .text "SET",
        .space [' '], .text "x", .space [' '], .text "=", .space [' '],
        .number "1"] := by
  have hpieces := piecesFuel_updateOf ht (.inl rfl) (t.length + 6)
  have hnil : piecesFuel (t.length + 6) [] = [] := rfl
  rw [List.append_nil] at hpieces
  rw [pieces, length_updateOf]
  exact hpieces

def readablePiece : Piece → Bool
  | .space _ | .number _ => true
  | .text t => t.all isAscii && !t.contains '$' && t != [';']
  | _ => false

variable {U : UnicodeTables}

theorem afterWriteText_of_readable (ha : t.all isAscii)
    (hd : t.contains '$' = false) (spot : TableSpot) :
    spot.afterWriteText U t = some (spot.afterWord t) := by
  have hany : (t.any fun c => !isAscii c && !isWhitespace c) = false := by
    rw [List.any_eq_false]
    intro c hc
    simp [List.all_eq_true.mp ha c hc]
  have hreadable : unreadableName t = false := by
    rw [unreadableName, hd, hany, Bool.or_self, Bool.and_false]
  rw [TableSpot.afterWriteText, if_pos ha, hreadable, Bool.and_false]
  rfl

variable {sql : Str} {sc : Scan} {n : Nat}

theorem scanPiece_of_readable {p : Piece} (hp : readablePiece p)
    (hended : sc.ended = false) (hn : sc.first = some n) :
    ∃ sc', scanPiece U sql sc p = some sc' ∧ sc'.ended = false ∧ sc'.first = some n := by
  cases p with
  | space t => exact ⟨_, rfl, hended, hn⟩
  | text t =>
    simp only [readablePiece, Bool.and_eq_true, Bool.not_eq_true', bne_iff_ne] at hp
    obtain ⟨⟨ha, hd⟩, hsemi⟩ := hp
    refine ⟨sc.past (.text t) (sc.spot.afterWord t), ?_, hended, by rw [Scan.past, hn]; rfl⟩
    rw [scanPiece, hended, afterWriteText_of_readable ha hd, beq_eq_false_iff_ne.mpr hsemi]
    rfl
  | number t =>
    refine ⟨sc.past (.number t) (sc.spot.after (.number t)), ?_, hended, by rw [Scan.past, hn]; rfl⟩
    rw [scanPiece, hended]
    rfl
  | comment t | ident t | str t | dollar t _ | rest t => cases hp

theorem foldlM_scanPiece {ps : List Piece}
    (h : ∀ p ∈ ps, readablePiece p) (hended : sc.ended = false)
    (hn : sc.first = some n) :
    ∃ sc', ps.foldlM (scanPiece U sql) sc = some sc' ∧ sc'.first = some n := by
  induction ps generalizing sc with
  | nil => exact ⟨sc, rfl, hn⟩
  | cons p ps ih =>
    obtain ⟨sc', hstep, hended', hn'⟩ := scanPiece_of_readable (h p mem_cons_self) hended hn
    obtain ⟨sc'', hrun, hfirst⟩ := ih (fun q hq => h q (mem_cons_of_mem _ hq)) hended' hn'
    refine ⟨sc'', ?_, hfirst⟩
    rw [foldlM_cons, hstep]
    exact hrun

theorem statementStart_updateOf : statementStart (updateOf t) = some (updateOf t) := rfl

theorem singleStatement_updateOf (ht : PlainName t) :
    singleStatement U (updateOf t) = some (updateOf t, updateOf t) := by
  have hplain := List.all_eq_true.mp ht.chars
  have hname : readablePiece (.text t) := by
    simp only [readablePiece, Bool.and_eq_true, Bool.not_eq_true', bne_iff_ne]
    refine ⟨⟨List.all_eq_true.mpr fun c hc => isAscii_of_plainChar (hplain c hc), ?_⟩, ?_⟩
    · rw [← Bool.not_eq_true, contains_iff_mem]
      exact fun h => not_punctuation_of_plain (hplain _ h) (by decide)
    · rintro rfl
      exact absurd (hplain ';' mem_cons_self) (by decide)
  have hreadable : ∀ p ∈ (pieces (updateOf t)).tail, readablePiece p := by
    rw [pieces_updateOf ht]
    simp only [tail_cons, forall_mem_cons, hname]
    decide
  have hfirst : scanPiece U (updateOf t) Scan.init (.text "UPDATE") =
      some (Scan.init.past (.text "UPDATE") (.name .target)) := rfl
  obtain ⟨sc, hrun, hn⟩ : ∃ sc, (pieces (updateOf t)).tail.foldlM (scanPiece U (updateOf t))
      (Scan.init.past (.text "UPDATE") (.name .target)) = some sc ∧ sc.first = some 0 :=
    foldlM_scanPiece hreadable rfl rfl
  rw [pieces_updateOf ht, tail_cons] at hrun
  have hstripped : stripped (updateOf t) (pieces (updateOf t)) = updateOf t := by
    rw [pieces_updateOf ht]
    rfl
  rw [singleStatement, pieces_updateOf ht, foldlM_cons, hfirst]
  simp only [Option.bind_eq_bind, Option.bind_some, hrun, hn, drop_zero,
    statementStart_updateOf]
  rfl

end HeliosProxy.Text
