import HeliosProxy.Pool.CleanReset
import HeliosProxy.Replay.AllowedCalls

/-!
# Reads that may be cached

A `SELECT` is cached unless its text contains one of a few strings.  PostgreSQL reads the
same calls and locking clauses in texts that are set apart in other ways, and those are
cached.
-/

namespace HeliosProxy.Cache

open Text Postgres Replay Pool List Option

/-- `VOLATILE`. -/
def volatileNeedles : List String :=
  ["now(", "current_timestamp", "current_date", "current_time", "clock_timestamp",
    "statement_timestamp", "random(", "nextval(", "uuid_generate", "gen_random_uuid", "set_config("]

def isCacheableReadSql (sql : Str) : Bool :=
  let t := trimStart sql
  let core := trimEnd t
  let core := if core.getLast? == some ';' then trimEnd core.dropLast else core
  let lower := t.map Char.toLower
  if !startsWithCi t "SELECT" then false
  else if core.contains ';' then false
  else if containsWordCi core "into" then false
  else if containsSub "for update" lower || containsSub "for share" lower then false
  else !volatileNeedles.any fun v => containsSub v.toList lower

/-! ## What PostgreSQL reads -/

def isName (names : List String) (w : Str) : Bool :=
  names.any fun n => w.map Char.toLower == n.toList

def startWords : List String → List SqlToken → Bool
  | [], _ => true
  | w :: ws, .ident x :: ts => isName [w] x && startWords ws ts
  | _ :: _, _ => false

/-- The locking clauses, behind `FOR`. -/
def locks (us : List Scanned) : Bool :=
  [["update"], ["no", "key", "update"], ["share"], ["key", "share"]].any fun lock =>
    startWords lock (tokensOf us)

def calledNames : List String := ["now", "random", "nextval", "set_config"]

/-- The identifier, in front of `us`, is a volatile call or value, or opens a locking clause. -/
def isVolatileAt (w : Str) (us : List Scanned) : Bool :=
  isName ["current_timestamp", "current_date", "current_time"] w ||
    (isName (calledNames ++ ["clock_timestamp", "statement_timestamp", "gen_random_uuid"]) w &&
      callFollows (.ident w) us) ||
    (isName ["for"] w && locks us)

/-- A call and a locking clause are written as the needles are: the parenthesis stands right behind
the name, and one space before `UPDATE` or `SHARE`. -/
structure WrittenPlain (w : Str) (us : List Scanned) : Prop where
  call : isName calledNames w = true → callFollows (.ident w) us = true →
    ∃ rest, us = .token (.op ['(']) :: rest
  lock : isName ["for"] w = true → locks us = true →
    ∃ x rest, us = .blank ' ' :: .token (.ident x) :: rest ∧ isName ["update", "share"] x = true

def Throughout (p : Str → List Scanned → Prop) (us : List Scanned) : Prop :=
  ∀ a w b, us = a ++ .token (.ident w) :: b → p w b

theorem tokenAt_ident {c : Char} {s w after : Str} (hr : tokenAt c s = some (.ident w, after)) :
    c :: s = w ++ after := by
  rcases tokenAt_cases hr with ⟨k, s', body, -, ht, -⟩ | ⟨tok, s', body, ho, ht, -⟩ |
    ⟨-, -, ⟨-, ht, rfl⟩ | ⟨-, hd⟩ | ⟨number, -, -, -, ht⟩ | ⟨-, -, ht, -⟩⟩
  · cases ht
  · rcases (opensQuoted_spec ho).1 with rfl | rfl <;> cases ht
  · cases ht
    rw [cons_append, takeWhile_append_dropWhile]
  · rcases dollarAt_token hd with ⟨tag, body, ht⟩ | ⟨digits, ht⟩ | ht <;> cases ht
  · cases ht
  · cases ht

variable {s rest : Str} {b : List Scanned}

theorem scans_token {t : SqlToken} (hs : Scans s (.token t :: b) rest) :
    ∃ c r after, s = c :: r ∧ commentAt s = false ∧ tokenAt c r = some (t, after) ∧
      Scans after b rest := by
  obtain _ | ⟨hr, hb⟩ := hs
  rcases scannedAt_cases hr with ⟨-, ho, -⟩ | ⟨_, _, -, -, ho, -⟩ | ⟨_, _, -, -, ho, -⟩ |
    ⟨-, hc, t, hsa, ht⟩
  · cases ho
  · cases ho
  · cases ho
  · cases hsa
    exact ⟨_, _, _, rfl, hc, ht, hb⟩

theorem scans_blank {d : Char} (hs : Scans s (.blank d :: b) rest) :
    ∃ r, s = d :: r ∧ Scans r b rest := by
  obtain _ | ⟨hr, hb⟩ := hs
  rcases scannedAt_cases hr with ⟨-, hsa, rfl⟩ | ⟨_, _, -, -, ho, -⟩ | ⟨_, _, -, -, ho, -⟩ |
    ⟨-, -, t, ho, -⟩
  · cases hsa
    exact ⟨_, rfl, hb⟩
  · cases ho
  · cases ho
  · cases ho

theorem scans_ident {w : Str} {a : List Scanned} (hs : Scans s (a ++ .token (.ident w) :: b) rest) :
    ∃ x y, s = x ++ (w ++ y) ∧ Scans y b rest := by
  induction a generalizing s with
  | nil =>
    obtain ⟨c, r, after, rfl, -, ht, hb⟩ := scans_token hs
    exact ⟨[], after, (tokenAt_ident ht : c :: r = w ++ after), hb⟩
  | cons u a ih =>
    obtain _ | @⟨c, s, after, _, _, _, hr, hb⟩ := hs
    obtain ⟨x, y, rfl, hre⟩ := ih hb
    obtain ⟨z, hw⟩ := (scannedAt_suffix hr).trans (suffix_cons c s)
    exact ⟨z ++ x, y, by rw [← hw, append_assoc], hre⟩

theorem cacheable_needles {sql : Str} (hc : isCacheableReadSql sql) {v : String}
    (hn : v ∈ "for update" :: "for share" :: volatileNeedles) :
    containsSub v.toList ((trimStart sql).map Char.toLower) = false := by
  unfold isCacheableReadSql at hc
  simp only [Bool.if_false_left, Bool.and_eq_true, Bool.not_eq_true', decide_eq_false_iff_not,
    Bool.or_eq_true, not_or, Bool.not_eq_true, List.any_eq_false] at hc
  obtain ⟨-, -, -, ⟨hu, hs⟩, hv⟩ := hc
  rcases mem_cons.mp hn with rfl | hn
  · exact hu
  rcases mem_cons.mp hn with rfl | hn
  · exact hs
  · exact hv v hn

theorem cacheable_apart {x n y : Str} (hc : isCacheableReadSql (x ++ (n ++ y))) {v : String}
    (hn : v ∈ "for update" :: "for share" :: volatileNeedles) : n.map Char.toLower ≠ v.toList := by
  intro hlo
  have hle : ∀ v ∈ "for update" :: "for share" :: volatileNeedles,
    v.toList.head?.any Char.isAlpha := by decide
  have hl := hle v hn
  have hf : (n ++ y).head?.any (!isWhitespace ·) := by
    rw [← hlo] at hl
    cases n with
    | nil => cases hl
    | cons c n =>
      rw [cons_append, head?_cons, any_some,
        Journal.isWhitespace_of_isAlpha (Journal.isAlpha_of_toLower hl)]
      rfl
  have ha := cacheable_needles hc hn
  rw [trimStart_append hf, map_append, map_append, hlo] at ha
  exact Bool.eq_false_iff.mp ha (containsSub_iff.mpr ⟨_, _, append_assoc _ _ _⟩)

theorem isName_iff {names : List String} {w : Str} :
    isName names w ↔ ∃ n ∈ names, w.map Char.toLower = n.toList := by
  simp [isName]

/-- Of what PostgreSQL reads in a text that is cached, nothing is volatile or locks rows, exactly if
what would is written as the needles are. -/
theorem cacheable_reads_plain {sql rest : Str} {us : List Scanned}
    (hcacheable : isCacheableReadSql sql = true) (hscans : Scans sql us rest) :
    Throughout (fun w b => isVolatileAt w b = false) us ↔ Throughout WrittenPlain us := by
  constructor
  · intro hcalm a w b hat_
    have hnone := hcalm a w b hat_
    simp only [isVolatileAt, Bool.or_eq_false_iff] at hnone
    obtain ⟨⟨-, hcall⟩, hlock⟩ := hnone
    refine ⟨fun hname hfollows => ?_, fun hname hlocked => ?_⟩
    · obtain ⟨n, hmem, hlower⟩ := isName_iff.mp hname
      have hnamed :
        isName (calledNames ++ ["clock_timestamp", "statement_timestamp", "gen_random_uuid"]) w =
        true :=
        isName_iff.mpr ⟨n, mem_append_left _ hmem, hlower⟩
      rw [hnamed, hfollows] at hcall
      simp at hcall
    · rw [hname, hlocked] at hlock
      simp at hlock
  · intro hplain a w b hat_
    obtain ⟨x, y, rfl, hbehind⟩ := scans_ident (hat_ ▸ hscans)
    rw [Bool.eq_false_iff]
    intro hvolatile
    simp only [isVolatileAt, Bool.or_eq_true, Bool.and_eq_true] at hvolatile
    rcases hvolatile with (hvalue | ⟨hname, hfollows⟩) | ⟨hname, hlocked⟩
    · obtain ⟨n, hmem, hlower⟩ := isName_iff.mp hvalue
      have hneedles : ∀ n ∈ ["current_timestamp", "current_date", "current_time"],
          n ∈ "for update" :: "for share" :: volatileNeedles := by decide
      exact cacheable_apart hcacheable (hneedles n hmem) hlower
    · obtain ⟨n, hmem, hlower⟩ := isName_iff.mp hname
      rcases mem_append.mp hmem with hcalled | hmem
      · obtain ⟨rest, rfl⟩ :=
          (hplain a w b hat_).call (isName_iff.mpr ⟨n, hcalled, hlower⟩) hfollows
        obtain ⟨c, r, after, rfl, hcomment, htoken, -⟩ := scans_token hbehind
        obtain rfl := tokenAt_paren hcomment htoken
        have hneedles :
          ∀ n ∈ calledNames, n ++ "(" ∈ "for update" :: "for share" :: volatileNeedles := by decide
        rw [← singleton_append, ← append_assoc w] at hcacheable
        refine cacheable_apart hcacheable (hneedles n hcalled) ?_
        rw [map_append, hlower, String.toList_append]
        rfl
      · have hneedles : ∀ n ∈ ["clock_timestamp", "statement_timestamp", "gen_random_uuid"],
            n ∈ "for update" :: "for share" :: volatileNeedles := by decide
        exact cacheable_apart hcacheable (hneedles n hmem) hlower
    · obtain ⟨z, rest, rfl, hmode⟩ := (hplain a w b hat_).lock hname hlocked
      obtain ⟨y, rfl, hspaced⟩ := scans_blank hbehind
      obtain ⟨c, r, after, rfl, -, htoken, -⟩ := scans_token hspaced
      obtain ⟨f, hisFor, hlower⟩ := isName_iff.mp hname
      obtain rfl := mem_singleton.mp hisFor
      obtain ⟨n, hmem, hlower'⟩ := isName_iff.mp hmode
      have hneedles :
        ∀ n ∈ ["update", "share"],
        "for " ++ n ∈ "for update" :: "for share" :: volatileNeedles := by decide
      rw [tokenAt_ident htoken, ← cons_append, ← append_assoc w] at hcacheable
      refine cacheable_apart hcacheable (hneedles n hmem) ?_
      rw [map_append, map_cons, hlower, hlower', String.toList_append]
      rfl

/-- A column `now` is none of the calls; the blank hides the call of `random`. -/
theorem cacheable_reads_plain_random :
    isCacheableReadSql "SELECT now, random () FROM t" = true ∧
      ∃ us, scanSql "SELECT now, random () FROM t" = some us ∧ ¬ Throughout WrittenPlain us := by
  have hcacheable : isCacheableReadSql "SELECT now, random () FROM t" = true := by decide
  have hscanned : scanSql "SELECT now, random () FROM t" =
      some ([.token (.ident "SELECT"), .blank ' ', .token (.ident "now"),
        .token (.op [',']), .blank ' '] ++ .token (.ident "random") ::
        [.blank ' ', .token (.op ['(']), .token (.op [')']), .blank ' ',
          .token (.ident "FROM"), .blank ' ', .token (.ident ['t'])]) := by decide
  refine ⟨hcacheable, _, hscanned, fun hplain => ?_⟩
  have hnone := (cacheable_reads_plain hcacheable (scanSql_iff.mp hscanned)).2 hplain _ _ _ rfl
  exact absurd hnone (by decide)

/-- A blank in front of the parenthesis. -/
theorem not_cacheable_reads_plain :
    isCacheableReadSql "SELECT now ()" = true ∧
      scanSql "SELECT now ()" =
        some ([.token (.ident "SELECT"), .blank ' '] ++ .token (.ident "now") ::
          [.blank ' ', .token (.op ['(']), .token (.op [')'])]) ∧
      isVolatileAt "now" [.blank ' ', .token (.op ['(']), .token (.op [')'])] = true := by
  decide

end HeliosProxy.Cache
