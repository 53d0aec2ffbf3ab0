import HeliosProxy.Replay.Words

/-!
# The words of a layout

`words` reads the words of a text whatever gaps of white space and comments stand
between them.
-/

namespace HeliosProxy.Replay

open Text Journal

def ReadsAs (s : Str) (ws : List (Str × Bool)) : Prop :=
  ∀ fuel, s.length < fuel →
    ∃ l, wordsFuel fuel s = (l, true) ∧ l.map (fun w => (w.text, w.quoted)) = ws

variable {s : Str} {ws : List (Str × Bool)}

theorem readsAs_iff :
    ReadsAs s ws ↔ (words s).2 ∧ (words s).1.map (fun w => (w.text, w.quoted)) = ws := by
  constructor
  · intro h
    obtain ⟨l, hl, rfl⟩ := h (s.length + 1) (Nat.lt_succ_self _)
    rw [words, hl]
    exact ⟨rfl, rfl⟩
  · rintro ⟨hlexes, rfl⟩ fuel hfuel
    exact ⟨(words s).1, (wordsFuel_eq hfuel (Nat.lt_succ_self _)).trans (Prod.ext rfl hlexes), rfl⟩

theorem readsAs_nil : ReadsAs [] [] := readsAs_iff.mpr ⟨rfl, rfl⟩

section

variable (h : ReadsAs s ws)
include h

theorem ReadsAs.leadWords {n : Nat}
    (hn : ws.length ≤ n) : ∃ l, trLeadWords s n = some l ∧ l.map (fun w => (w.text, w.quoted)) = ws := by
  obtain ⟨hlexes, rfl⟩ := readsAs_iff.mp h
  refine ⟨(words s).1, ?_, rfl⟩
  rw [List.length_map] at hn
  simp only [trLeadWords, hlexes, Bool.or_true, if_true, List.take_of_length_le hn]

theorem ReadsAs.gap {g : Str} (hg : Gap g) : ReadsAs (g ++ s) ws := by
  rw [readsAs_iff, words_gap hg]
  exact readsAs_iff.mp h

theorem ReadsAs.word {c : Char} {w : Str} (hc : identStart c) (hw : w.all identCont)
    (hs : s.head?.all (!identCont ·)) : ReadsAs (c :: w ++ s) ((c :: w, false) :: ws) := by
  obtain ⟨hlexes, rfl⟩ := readsAs_iff.mp h
  rw [readsAs_iff, words_word hc hw hs]
  exact ⟨hlexes, rfl⟩

theorem ReadsAs.semicolon : ReadsAs (';' :: s) ws := by
  have htoken : readToken false ';' s = some (.semicolon, s) := rfl
  rw [readsAs_iff, words_pass htoken rfl]
  exact readsAs_iff.mp h

theorem ReadsAs.quoted {body : Str} (hbody : '\x00' ∉ body) (hs : s.head?.all (· != '"')) :
    ReadsAs (quoteIdent body ++ s) ((quoteIdent body, true) :: ws) := by
  obtain ⟨hlexes, rfl⟩ := readsAs_iff.mp h
  rw [readsAs_iff, words_quoted hbody hs]
  exact ⟨hlexes, rfl⟩

end

end HeliosProxy.Replay
