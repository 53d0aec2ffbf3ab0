import Mathlib

/-!
# Lists without repetition

Collecting values in the order they are first seen.
-/

namespace HeliosProxy.Lists

open List

variable {α : Type*} [DecidableEq α]

/-- `l` with `a` at its end, unless it holds `a`. -/
def addNew (l : List α) (a : α) : List α := if a ∈ l then l else l ++ [a]

variable {l : List α} {a : α}

@[simp] theorem mem_addNew {b : α} : b ∈ addNew l a ↔ b ∈ l ∨ b = a := by
  unfold addNew
  split
  next h =>
    refine ⟨.inl, ?_⟩
    rintro (hb | rfl)
    · exact hb
    · exact h
  next => simp

theorem nodup_addNew (h : l.Nodup) (a : α) : (addNew l a).Nodup := by
  unfold addNew
  split
  next => exact h
  next hnew =>
    refine nodup_append.mpr ⟨h, by simp, ?_⟩
    rintro b hb c hc rfl
    rw [mem_singleton.mp hc] at hb
    exact hnew hb

@[simp] theorem mem_foldl_addNew {as : List α} {b : α} :
    b ∈ as.foldl addNew l ↔ b ∈ l ∨ b ∈ as := by
  induction as generalizing l with
  | nil => simp
  | cons a as ih => rw [foldl_cons, ih, mem_addNew, mem_cons, or_assoc]

theorem addNew_of_notMem (h : a ∉ l) : addNew l a = l ++ [a] := if_neg h

theorem addNew_of_mem (h : a ∈ l) : addNew l a = l := if_pos h

theorem foldl_addNew_of_disjoint {as : List α} (hnodup : as.Nodup) (hnew : ∀ a ∈ as, a ∉ l) :
    as.foldl addNew l = l ++ as := by
  induction as generalizing l with
  | nil => simp
  | cons a as ih =>
    obtain ⟨ha, hh⟩ := nodup_cons.mp hnodup
    rw [foldl_cons, addNew_of_notMem (hnew a mem_cons_self), ih hh, append_assoc]
    · rfl
    · intro b hb hmem
      rcases mem_append.mp hmem with hmem | hmem
      · exact hnew b (mem_cons_of_mem _ hb) hmem
      · rw [mem_singleton.mp hmem] at hb
        exact ha hb

theorem sublist_foldl_addNew (l as : List α) : l.Sublist (as.foldl addNew l) := by
  induction as generalizing l with
  | nil => exact Sublist.refl l
  | cons a as ih =>
    refine Sublist.trans ?_ (ih (addNew l a))
    unfold addNew
    split
    · exact Sublist.refl l
    · exact sublist_append_left l [a]

theorem nodup_foldl_addNew (h : l.Nodup) (as : List α) : (as.foldl addNew l).Nodup := by
  induction as generalizing l with
  | nil => exact h
  | cons a as ih => exact ih (nodup_addNew h a)

/-- `addNew` into a list that takes at most `cap` values. -/
def addNewUpTo (cap : Nat) (l : List α) (a : α) : List α :=
  if cap ≤ l.length ∨ a ∈ l then l else l ++ [a]

theorem addNewUpTo_eq {cap : Nat} (all : List α) (hl : l.Nodup) (hsub : l ⊆ all)
    (ha : a ∈ all) (hall : all.dedup.length ≤ cap) : addNewUpTo cap l a = addNew l a := by
  by_cases hmem : a ∈ l
  · rw [addNewUpTo, addNew, if_pos (.inr hmem), if_pos hmem]
  · have hnodup := nodup_addNew hl a
    have hincl : addNew l a ⊆ all.dedup := by
      intro b hb
      rw [mem_dedup]
      rcases mem_addNew.mp hb with hb | rfl
      · exact hsub hb
      · exact ha
    have hlen := (hnodup.subperm hincl).length_le
    rw [addNew_of_notMem hmem, length_append, length_singleton] at hlen
    rw [addNewUpTo, addNew_of_notMem hmem, if_neg]
    rintro (hfull | hin)
    · omega
    · exact hmem hin

omit [DecidableEq α] in
theorem foldl_getD_eq {β : Type*} (f : α → Option β) (l : List α) (u : β) :
    l.foldl (fun u x => (f x).getD u) u = (l.reverse.findSome? f).getD u := by
  induction l using List.reverseRecOn with
  | nil => rfl
  | append_singleton l x ih =>
    rw [foldl_append, ih]
    cases h : f x <;> simp [h]

variable {p : α → Bool}

omit [DecidableEq α] in
theorem filter_eq_take (h : l.Pairwise fun a b => p b → p a) :
    l.filter p = l.take (l.filter p).length := by
  induction l with
  | nil => rfl
  | cons a l ih =>
    obtain ⟨hfirst, hrest⟩ := pairwise_cons.mp h
    cases ha : p a with
    | true =>
      rw [filter_cons_of_pos ha, length_cons, take_succ_cons]
      exact congrArg (a :: ·) (ih hrest)
    | false =>
      have hnone : l.filter p = [] := filter_eq_nil_iff.mpr fun b hb hpb => by
        simp [hfirst b hb hpb] at ha
      rw [filter_cons_of_neg (by simp [ha]), hnone]
      rfl

omit [DecidableEq α] in
theorem filter_append_filter_not
    (h : l.Pairwise fun a b => p b → p a) : l.filter p ++ l.filter (!p ·) = l := by
  induction l with
  | nil => rfl
  | cons a l ih =>
    obtain ⟨hfirst, hrest⟩ := pairwise_cons.mp h
    cases ha : p a with
    | true =>
      rw [filter_cons_of_pos ha, filter_cons_of_neg (by simp [ha]), cons_append, ih hrest]
    | false =>
      have hnone : ∀ b ∈ l, p b = false := fun b hb => by
        rw [Bool.eq_false_iff]
        exact fun hpb => by simp [hfirst b hb hpb] at ha
      have hnil : l.filter p = [] := filter_eq_nil_iff.mpr fun b hb => by simp [hnone b hb]
      have hall : l.filter (!p ·) = l := filter_eq_self.mpr fun b hb => by simp [hnone b hb]
      rw [filter_cons_of_neg (by simp [ha]), filter_cons_of_pos (by simp [ha]), hnil, hall]
      rfl

theorem countP_eq_add_one {q : α → Bool} (hnodup : l.Nodup) (ha : a ∈ l)
    (hp : p a = false) (hq : q a) (hrest : ∀ b ∈ l, b ≠ a → q b = p b) :
    l.countP q = l.countP p + 1 := by
  have hperm := perm_cons_erase ha
  rw [hperm.countP_eq, hperm.countP_eq, countP_cons_of_pos hq,
    countP_cons_of_neg (by simp [hp])]
  refine congrArg (· + 1) (countP_congr fun b hb => ?_)
  obtain ⟨hne, hmem⟩ := hnodup.mem_erase_iff.mp hb
  rw [hrest b hmem hne]

end HeliosProxy.Lists
