import Mathlib

/-!
# Leftmost-first regular expressions

Regular expressions over an arbitrary alphabet with capture groups, whose
unbounded repetitions are of single symbols.  `run` gives all ways to match at
a cursor in the order a backtracking matcher tries them, so the first of them
is the match of the leftmost-first semantics: alternatives from left to right,
an option and a repetition as long as possible first.  `find` searches the
first position at which there is a match.
-/

namespace HeliosProxy

open List

inductive Regex (α : Type*)
  | eps
  | cls (p : α → Bool)
  | star (p : α → Bool)
  | seq (r s : Regex α)
  | alt (r s : Regex α)
  | opt (r : Regex α)
  | group (n : Nat) (r : Regex α)

namespace Regex

variable {α : Type*}

/-- A position in the searched text, what follows it, and the groups captured
so far with their first and past-the-end positions. -/
structure Cursor (α : Type*) where
  pos : Nat
  rest : List α
  caps : List (Nat × Nat × Nat)

def Cursor.capture (c : Cursor α) (n start : Nat) : Cursor α :=
  { c with caps := (n, start, c.pos) :: c.caps }

def Cursor.extent (c : Cursor α) (n : Nat) : Option (Nat × Nat) := c.caps.lookup n

/-- The cursors a greedy repetition of `p` stops at, the longest first. -/
def runStar (p : α → Bool) (pos : Nat) (caps : List (Nat × Nat × Nat)) :
    List α → List (Cursor α)
  | [] => [⟨pos, [], caps⟩]
  | a :: rest =>
    if p a then runStar p (pos + 1) caps rest ++ [⟨pos, a :: rest, caps⟩]
    else [⟨pos, a :: rest, caps⟩]

/-- The cursors at the end of the matches at a cursor, in the order of
preference. -/
def run : Regex α → Cursor α → List (Cursor α)
  | .eps, c => [c]
  | .cls p, c =>
    match c.rest with
    | [] => []
    | a :: rest => if p a then [⟨c.pos + 1, rest, c.caps⟩] else []
  | .star p, c => runStar p c.pos c.caps c.rest
  | .seq r s, c => (run r c).flatMap (run s)
  | .alt r s, c => run r c ++ run s c
  | .opt r, c => run r c ++ [c]
  | .group n r, c => (run r c).map fun d => d.capture n c.pos

variable (c : Cursor α)

theorem run_eps : run .eps c = [c] := rfl

theorem run_cls (p : α → Bool) :
    run (.cls p) c =
      match c.rest with
      | [] => []
      | a :: rest => if p a then [⟨c.pos + 1, rest, c.caps⟩] else [] := rfl

theorem run_seq (r s : Regex α) : run (.seq r s) c = (run r c).flatMap (run s) := rfl

theorem run_opt (r : Regex α) : run (.opt r) c = run r c ++ [c] := rfl

theorem run_group (n : Nat) (r : Regex α) :
    run (.group n r) c = (run r c).map fun d => d.capture n c.pos := rfl

def find (r : Regex α) : Nat → List α → Option (Cursor α)
  | pos, [] => (run r ⟨pos, [], []⟩).head?
  | pos, a :: rest =>
    match run r ⟨pos, a :: rest, []⟩ with
    | c :: _ => some c
    | [] => find r (pos + 1) rest

def word : List (α → Bool) → Regex α
  | [] => .eps
  | p :: ps => .seq (.cls p) (word ps)

def plus (p : α → Bool) : Regex α := .seq (.cls p) (.star p)

/-- At most `n` repetitions, as many as possible first. -/
def upTo (r : Regex α) : Nat → Regex α
  | 0 => .eps
  | n + 1 => .opt (.seq r (upTo r n))

/-! ## What a match consumes -/

variable {p : α → Bool}

/-- A repetition of `p` over a run of `p` that ends there, as long as possible
first. -/
theorem runStar_append {w tail : List α} (hw : ∀ a ∈ w, p a)
    (htail : ∀ a ∈ tail.head?, p a = false) (pos : Nat) (caps : List (Nat × Nat × Nat)) :
    ∃ shorter, runStar p pos caps (w ++ tail) = ⟨pos + w.length, tail, caps⟩ :: shorter := by
  induction w generalizing pos with
  | nil =>
    refine ⟨[], ?_⟩
    cases tail with
    | nil => rfl
    | cons a tail => simp [runStar, htail a rfl]
  | cons a w ih =>
    obtain ⟨shorter, hshorter⟩ := ih (fun b hb => hw b (mem_cons_of_mem _ hb)) (pos + 1)
    refine ⟨shorter ++ [⟨pos, a :: (w ++ tail), caps⟩], ?_⟩
    rw [cons_append, runStar, if_pos (hw a mem_cons_self), hshorter, cons_append,
      length_cons]
    congr 2
    omega

variable {pos : Nat} {s : List α} {d : Cursor α}

theorem mem_runStar {caps : List (Nat × Nat × Nat)} (h : d ∈ runStar p pos caps s) :
    ∃ w, s = w ++ d.rest ∧ (∀ a ∈ w, p a) ∧ d.pos = pos + w.length ∧ d.caps = caps := by
  induction s generalizing pos with
  | nil =>
    rw [runStar, mem_singleton] at h
    subst h
    exact ⟨[], rfl, by simp, rfl, rfl⟩
  | cons a s ih =>
    rw [runStar] at h
    split at h
    next ha =>
      rcases mem_append.mp h with h | h
      · obtain ⟨w, rfl, hw, hpos, hcaps⟩ := ih h
        refine ⟨a :: w, rfl, ?_, ?_, hcaps⟩
        · intro b hb
          rcases mem_cons.mp hb with rfl | hb
          · exact ha
          · exact hw b hb
        · rw [length_cons]
          omega
      · rw [mem_singleton] at h
        subst h
        exact ⟨[], rfl, by simp, rfl, rfl⟩
    · rw [mem_singleton] at h
      subst h
      exact ⟨[], rfl, by simp, rfl, rfl⟩

variable {c : Cursor α}

theorem mem_run_word {ps : List (α → Bool)} (h : d ∈ run (word ps) c) :
    ∃ w, c.rest = w ++ d.rest ∧ Forall₂ (fun p a => p a) ps w := by
  induction ps generalizing c with
  | nil =>
    rw [word, run_eps, mem_singleton] at h
    subst h
    exact ⟨[], rfl, .nil⟩
  | cons p ps ih =>
    rw [word, run_seq, mem_flatMap] at h
    obtain ⟨e, he, hd⟩ := h
    rw [run_cls] at he
    split at he
    · cases he
    next a rest hrest =>
      split at he
      next hp =>
        rw [mem_singleton] at he
        subst he
        obtain ⟨w, hw, hall⟩ := ih hd
        refine ⟨a :: w, ?_, .cons hp hall⟩
        rw [hrest, cons_append, ← hw]
      · cases he

/-- A match of one or more of `p` starts with a `p`. -/
theorem run_plus_ne_nil (h : run (plus p) c ≠ []) :
    ∃ a rest, c.rest = a :: rest ∧ p a := by
  rw [plus, run_seq] at h
  cases hrest : c.rest with
  | nil => simp [run_cls, hrest] at h
  | cons a rest =>
    refine ⟨a, rest, rfl, ?_⟩
    by_contra hp
    simp [run_cls, hrest, hp] at h

def StartsIn (p : α → Bool) (r : Regex α) : Prop :=
  ∀ c d, d ∈ run r c → d.rest = c.rest ∨ ∃ a rest, c.rest = a :: rest ∧ p a = true

variable {r : Regex α}

theorem StartsIn.opt (h : StartsIn p r) : StartsIn p (.opt r) := by
  intro c d hd
  rcases mem_append.mp hd with hd | hd
  · exact h c d hd
  · rw [mem_singleton.mp hd]
    exact .inl rfl

theorem StartsIn.alt {s : Regex α} (hr : StartsIn p r) (hs : StartsIn p s) :
    StartsIn p (.alt r s) := by
  intro c d hd
  rcases mem_append.mp hd with hd | hd
  · exact hr c d hd
  · exact hs c d hd

theorem StartsIn.seq {s : Regex α} (hr : StartsIn p r) (hs : StartsIn p s) :
    StartsIn p (.seq r s) := by
  intro c d hd
  rw [run_seq, mem_flatMap] at hd
  obtain ⟨e, he, hd⟩ := hd
  rcases hr c e he with hsame | hstart
  · rcases hs e d hd with hsame' | hstart'
    · exact .inl (hsame'.trans hsame)
    · exact .inr (hsame ▸ hstart')
  · exact .inr hstart

/-- What follows one or more of `p` does not matter. -/
theorem startsIn_plus_seq (p : α → Bool) (s : Regex α) : StartsIn p (.seq (plus p) s) := by
  intro c d hd
  rw [run_seq, mem_flatMap] at hd
  obtain ⟨e, he, _⟩ := hd
  exact .inr (run_plus_ne_nil (ne_nil_of_mem he))

/-! ## First matches -/

theorem head?_run_seq {s : Regex α} {e : Cursor α} {ds : List (Cursor α)}
    (hr : run r c = d :: ds) (hs : (run s d).head? = some e) :
    (run (.seq r s) c).head? = some e := by
  rw [run_seq, hr]
  cases hrun : run s d with
  | nil => simp [hrun] at hs
  | cons e' es => simpa [hrun] using hs

theorem run_seq_eq_nil {s : Regex α} (h : ∀ d ∈ run r c, run s d = []) :
    run (.seq r s) c = [] := by
  exact flatMap_eq_nil_iff.mpr h

theorem head?_run_group {n : Nat}
    (h : (run r c).head? = some d) : (run (.group n r) c).head? = some (d.capture n c.pos) := by
  rw [run_group, head?_map, h]
  rfl

theorem head?_run_opt_of_nil (h : run r c = []) :
    run (.opt r) c = [c] := by
  rw [run_opt, h, nil_append]

/-! ## Searching -/

theorem find_cons_of_nil {a : α}
    (h : run r ⟨pos, a :: s, []⟩ = []) : find r pos (a :: s) = find r (pos + 1) s := by
  rw [find, h]

theorem find_eq_some (h : find r pos s = some c) :
    ∃ u v, s = u ++ v ∧ (run r ⟨pos + u.length, v, []⟩).head? = some c := by
  induction s generalizing pos with
  | nil => exact ⟨[], [], rfl, h⟩
  | cons a s ih =>
    rw [find] at h
    split at h
    next d ds hrun =>
      refine ⟨[], a :: s, rfl, ?_⟩
      rw [length_nil, add_zero, hrun]
      exact h
    next hrun =>
      obtain ⟨u, v, rfl, hv⟩ := ih h
      refine ⟨a :: u, v, rfl, ?_⟩
      rwa [length_cons, add_comm u.length 1, ← add_assoc]

theorem find_of_head? (h : (run r ⟨pos, s, []⟩).head? = some c) : find r pos s = some c := by
  cases s with
  | nil => exact h
  | cons a s =>
    rw [find]
    cases hrun : run r ⟨pos, a :: s, []⟩ with
    | nil => simp [hrun] at h
    | cons d ds => simpa [hrun] using h

theorem find_eq_none
    (h : ∀ u v, s = u ++ v → run r ⟨pos + u.length, v, []⟩ = []) : find r pos s = none := by
  cases hfind : find r pos s with
  | none => rfl
  | some c =>
    obtain ⟨u, v, huv, hhead⟩ := find_eq_some hfind
    rw [h u v huv] at hhead
    cases hhead

end Regex

end HeliosProxy
