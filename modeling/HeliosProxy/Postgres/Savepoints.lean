import HeliosProxy.Text.Chars

/-!
# Savepoints of a transaction block

PostgreSQL keeps the savepoints of a block on a stack.  A name means the
innermost savepoint of that name, and an unquoted name is folded to lower case
and clipped to what an identifier holds.
-/

namespace HeliosProxy.Postgres

open Text

/-- As many whole characters as fit into `n` bytes. -/
def clip : Nat → Str → Str
  | _, [] => []
  | n, c :: s => if c.utf8Size ≤ n then c :: clip (n - c.utf8Size) s else []

structure Identifier where
  text : Str
  start : text.head?.any identStart = true
  cont : text.all identCont = true
deriving DecidableEq

def Identifier.name (n : Identifier) : Str := clip 63 (n.text.map Char.toLower)

inductive TxStmt (W : Type)
  | write (w : W)
  | savepoint (n : Identifier)
  | release (n : Identifier)
  | rollbackTo (n : Identifier)

inductive NamedStmt (W : Type)
  | write (w : W)
  | savepoint (n : Str)
  | release (n : Str)
  | rollbackTo (n : Str)

def TxStmt.named {W : Type} : TxStmt W → NamedStmt W
  | .write w => .write w
  | .savepoint n => .savepoint n.name
  | .release n => .release n.name
  | .rollbackTo n => .rollbackTo n.name

/-- A block: the writes that survive so far, and the savepoints with the number
of writes in front of each, innermost first. -/
structure Transaction (W : Type) where
  writes : List W
  savepoints : List (Str × Nat)

namespace Transaction

variable {W : Type}

def downTo (t : Transaction W) (n : Identifier) : List (Str × Nat) :=
  t.savepoints.dropWhile fun s => s.1 ≠ n.name

/-- `RELEASE` and `ROLLBACK TO` fail without a savepoint of the name. -/
def step (t : Transaction W) : TxStmt W → Option (Transaction W)
  | .write w => some { t with writes := t.writes ++ [w] }
  | .savepoint n => some { t with savepoints := (n.name, t.writes.length) :: t.savepoints }
  | .release n =>
    match t.downTo n with
    | [] => none
    | _ :: outer => some { t with savepoints := outer }
  | .rollbackTo n =>
    match t.downTo n with
    | [] => none
    | s :: outer => some ⟨t.writes.take s.2, s :: outer⟩

def downToName (savepoints : List (Str × Nat)) (n : Str) : List (Str × Nat) :=
  savepoints.dropWhile fun s => s.1 ≠ n

/-- `step`, by the name a statement means. -/
def exec (t : Transaction W) : NamedStmt W → Option (Transaction W)
  | .write w => some { t with writes := t.writes ++ [w] }
  | .savepoint n => some { t with savepoints := (n, t.writes.length) :: t.savepoints }
  | .release n =>
    match downToName t.savepoints n with
    | [] => none
    | _ :: outer => some { t with savepoints := outer }
  | .rollbackTo n =>
    match downToName t.savepoints n with
    | [] => none
    | s :: outer => some ⟨t.writes.take s.2, s :: outer⟩

theorem step_eq_exec (t : Transaction W) (stmt : TxStmt W) : t.step stmt = t.exec stmt.named := by
  cases stmt <;> rfl

def position? (t : Transaction W) (n : Identifier) : Option Nat := (t.downTo n).head?.map (·.2)

/-- An inner savepoint stands behind an outer one, and all behind writes that
survive. -/
structure Ordered (t : Transaction W) : Prop where
  nested : t.savepoints.Pairwise fun inner outer => outer.2 ≤ inner.2
  within : ∀ s ∈ t.savepoints, s.2 ≤ t.writes.length

theorem ordered_nil (writes : List W) : (⟨writes, []⟩ : Transaction W).Ordered := ⟨.nil, by simp⟩

variable {t t' : Transaction W} {stmt : TxStmt W}

theorem Ordered.exec {named : NamedStmt W} (h : t.Ordered) (hexec : t.exec named = some t') :
    t'.Ordered := by
  have hdown : ∀ n, (downToName t.savepoints n).Sublist t.savepoints := fun n =>
    List.dropWhile_sublist _
  cases named with
  | write w =>
    cases hexec
    refine ⟨h.nested, fun s hs => Nat.le_trans (h.within s hs) ?_⟩
    rw [List.length_append]
    exact Nat.le_add_right _ _
  | savepoint n =>
    cases hexec
    refine ⟨List.pairwise_cons.mpr ⟨h.within, h.nested⟩, ?_⟩
    rintro s hs
    rcases List.mem_cons.mp hs with rfl | hs
    · exact le_refl _
    · exact h.within s hs
  | release n =>
    rw [Transaction.exec] at hexec
    have hsub := hdown n
    cases hdn : downToName t.savepoints n with
    | nil => simp [hdn] at hexec
    | cons s outer =>
      rw [hdn] at hexec hsub
      cases hexec
      have hsub := (List.sublist_cons_self s outer).trans hsub
      exact ⟨h.nested.sublist hsub, fun s hs => h.within s (hsub.mem hs)⟩
  | rollbackTo n =>
    rw [Transaction.exec] at hexec
    have hsub := hdown n
    cases hdn : downToName t.savepoints n with
    | nil => simp [hdn] at hexec
    | cons s outer =>
      rw [hdn] at hexec hsub
      cases hexec
      have hnested := h.nested.sublist hsub
      refine ⟨hnested, fun r hr => ?_⟩
      have hle : r.2 ≤ s.2 := by
        rcases List.mem_cons.mp hr with rfl | hr
        · exact le_refl _
        · exact (List.pairwise_cons.mp hnested).1 r hr
      rw [List.length_take]
      exact Nat.le_min.mpr ⟨hle, h.within r (hsub.mem hr)⟩

theorem Ordered.step (h : t.Ordered) (hstep : t.step stmt = some t') : t'.Ordered := by
  rw [step_eq_exec] at hstep
  exact h.exec hstep

/-- `ROLLBACK TO` keeps the writes in front of the savepoint. -/
theorem Ordered.rollbackTo (h : t.Ordered) {n : Identifier} (hstep : t.step (.rollbackTo n) = some t') :
    ∃ k, t.position? n = some k ∧ k ≤ t.writes.length ∧ t'.writes = t.writes.take k := by
  rw [Transaction.step] at hstep
  rw [position?]
  cases hdown : t.downTo n with
  | nil => simp [hdown] at hstep
  | cons s outer =>
    rw [hdown] at hstep
    cases hstep
    have hmem : s ∈ t.savepoints := by
      refine (List.dropWhile_sublist _).mem (?_ : s ∈ t.downTo n)
      rw [hdown]
      exact List.mem_cons_self
    exact ⟨s.2, rfl, h.within s hmem, rfl⟩

end Transaction

end HeliosProxy.Postgres
