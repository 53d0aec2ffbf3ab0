import HeliosProxy.Lib.Lists

/-!
# PostgreSQL's simple queries

How PostgreSQL runs a string of statements of which none fails.  Statements
outside a transaction block share one implicit transaction, `BEGIN` turns it
into a block, `COMMIT` and `ROLLBACK` end what is open, and the implicit
transaction commits at the end of the string.

A write is recorded as a value of `W`: the table it changes, or the string it
was sent in.
-/

namespace HeliosProxy.Postgres

open HeliosProxy.Lists

variable {W V : Type}

inductive Stmt (W : Type)
  | write (w : W)
  | read
  | begin
  | commit
  | rollback
deriving DecidableEq

namespace Stmt

def map (f : W → V) : Stmt W → Stmt V
  | .write w => .write (f w)
  | .read => .read
  | .begin => .begin
  | .commit => .commit
  | .rollback => .rollback

def isWrite : Stmt W → Bool
  | .write _ => true
  | _ => false

end Stmt

def hasWrite (stmts : List (Stmt W)) : Bool := stmts.any Stmt.isWrite

theorem hasWrite_map (f : W → V) (stmts : List (Stmt W)) :
    hasWrite (stmts.map (Stmt.map f)) = hasWrite stmts := by
  rw [hasWrite, List.any_map]
  congr 1
  funext s
  cases s <;> rfl

structure Exec (W : Type) where
  inBlock : Bool
  /-- Writes of the open transaction. -/
  pending : List W
  /-- Writes made durable so far. -/
  durable : List W
  /-- Writes rolled back so far. -/
  undone : List W

namespace Exec

variable [DecidableEq W]

def commit (e : Exec W) : Exec W :=
  { e with inBlock := false, pending := [], durable := e.pending.foldl addNew e.durable }

def rollback (e : Exec W) : Exec W :=
  { e with inBlock := false, pending := [], undone := e.pending.foldl addNew e.undone }

def stmt (e : Exec W) : Stmt W → Exec W
  | .write w => { e with pending := addNew e.pending w }
  | .read => e
  | .begin => { e with inBlock := true }
  | .commit => e.commit
  | .rollback => e.rollback

def finish (e : Exec W) : Exec W := if e.inBlock then e else e.commit

def block (e : Exec W) : Option (List W) := if e.inBlock then some e.pending else none

end Exec

/-- A session that has the block `b` open runs a string. -/
def exec [DecidableEq W] (b : Option (List W)) (stmts : List (Stmt W)) : Exec W :=
  (stmts.foldl Exec.stmt ⟨b.isSome, b.getD [], [], []⟩).finish

/-! ## What a string can do -/

section Facts

variable [DecidableEq W]

structure Exec.Holds (P : W → Prop) (e : Exec W) : Prop where
  pending : ∀ w ∈ e.pending, P w
  durable : ∀ w ∈ e.durable, P w
  undone : ∀ w ∈ e.undone, P w

variable {P : W → Prop} {e : Exec W}

theorem Exec.Holds.commit (h : e.Holds P) : e.commit.Holds P where
  pending := by simp [Exec.commit]
  durable w hw := by
    rcases mem_foldl_addNew.mp hw with hw | hw
    · exact h.durable w hw
    · exact h.pending w hw
  undone := h.undone

theorem Exec.Holds.rollback (h : e.Holds P) : e.rollback.Holds P where
  pending := by simp [Exec.rollback]
  durable := h.durable
  undone w hw := by
    rcases mem_foldl_addNew.mp hw with hw | hw
    · exact h.undone w hw
    · exact h.pending w hw

theorem Exec.Holds.stmt (h : e.Holds P) {s : Stmt W}
    (hs : ∀ w, s = .write w → P w) : (e.stmt s).Holds P := by
  cases s with
  | write w =>
    refine ⟨fun v hv => ?_, h.durable, h.undone⟩
    rcases mem_addNew.mp hv with hv | rfl
    · exact h.pending v hv
    · exact hs v rfl
  | read => exact h
  | begin => exact ⟨h.pending, h.durable, h.undone⟩
  | commit => exact h.commit
  | rollback => exact h.rollback

theorem Exec.Holds.foldl {stmts : List (Stmt W)} (hs : ∀ w, .write w ∈ stmts → P w)
    (h : e.Holds P) : (stmts.foldl Exec.stmt e).Holds P := by
  induction stmts generalizing e with
  | nil => exact h
  | cons s stmts ih =>
    refine ih (fun w hw => hs w (List.mem_cons_of_mem _ hw)) (h.stmt fun w hw => ?_)
    exact hs w (hw ▸ List.mem_cons_self)

theorem exec_holds {b : Option (List W)} {stmts : List (Stmt W)}
    (hb : ∀ w ∈ b.getD [], P w) (hs : ∀ w, .write w ∈ stmts → P w) : (exec b stmts).Holds P := by
  have hfold : (stmts.foldl Exec.stmt ⟨b.isSome, b.getD [], [], []⟩).Holds P :=
    Exec.Holds.foldl hs ⟨hb, by simp, by simp⟩
  unfold exec Exec.finish
  split
  · exact hfold
  · exact hfold.commit

end Facts

/-! ## Strings whose writes are recorded alike

The writes of a string are all recorded as `w`; `old` are the writes of the
block it finds open. -/

section Fate

variable [DecidableEq W] {old : List W} {w : W}

def parts (old : List W) (w : W) (block string : Bool) : List W :=
  (if block then old else []) ++ if string then [w] else []

omit [DecidableEq W] in
theorem nodup_parts (hh : old.Nodup) (hw : w ∉ old) (block string : Bool) :
    (parts old w block string).Nodup := by
  cases block <;> cases string <;> simp [parts, hh, List.nodup_append]
  rintro a ha rfl
  exact hw ha

theorem addNew_parts (hw : w ∉ old) (block string : Bool) :
    addNew (parts old w block string) w = parts old w block true := by
  cases string with
  | true => exact addNew_of_mem (by simp [parts])
  | false =>
    have hnew : w ∉ parts old w block false := by cases block <;> simp [parts, hw]
    rw [addNew_of_notMem hnew]
    simp [parts]

def Exec.Fate (old : List W) (w : W) (e : Exec W) : Prop :=
  (e.durable = [] ∧ ∃ s, e.pending = parts old w true s) ∨
    ∃ p b s, e.pending = parts old w false p ∧ e.durable = parts old w b s

variable {e : Exec W}

theorem Exec.Fate.commit (hh : old.Nodup) (hw : w ∉ old) (h : e.Fate old w) :
    e.commit.Fate old w := by
  rcases h with ⟨hdurable, s, hpending⟩ | ⟨p, b, s, hpending, hdurable⟩
  · refine .inr ⟨false, true, s, rfl, ?_⟩
    rw [Exec.commit, hdurable, hpending, foldl_addNew_of_disjoint (nodup_parts hh hw true s) (by simp)]
    rfl
  · refine .inr ⟨false, b, s || p, rfl, ?_⟩
    rw [Exec.commit, hdurable, hpending]
    cases p with
    | false => rw [Bool.or_false]; rfl
    | true => rw [Bool.or_true]; exact addNew_parts hw b s

theorem Exec.Fate.stmt (hh : old.Nodup) (hw : w ∉ old) (h : e.Fate old w) {s : Stmt W}
    (hs : ∀ v, s = .write v → v = w) : (e.stmt s).Fate old w := by
  cases s with
  | write v =>
    obtain rfl := hs v rfl
    rcases h with ⟨hdurable, s, hpending⟩ | ⟨p, b, s, hpending, hdurable⟩
    · exact .inl ⟨hdurable, true, by rw [Exec.stmt, hpending, addNew_parts hw]⟩
    · exact .inr ⟨true, b, s, by rw [Exec.stmt, hpending, addNew_parts hw], hdurable⟩
  | read | begin => exact h
  | commit => exact h.commit hh hw
  | rollback =>
    rcases h with ⟨hdurable, s, hpending⟩ | ⟨p, b, s, hpending, hdurable⟩
    · exact .inr ⟨false, false, false, rfl, hdurable⟩
    · exact .inr ⟨false, b, s, rfl, hdurable⟩

theorem exec_durable {b : Option (List W)} (hh : (b.getD []).Nodup) (hw : w ∉ b.getD [])
    {stmts : List (Stmt W)} (hs : ∀ v, .write v ∈ stmts → v = w) :
    ∃ block string, (exec b stmts).durable = parts (b.getD []) w block string := by
  have hfate : ∀ (stmts : List (Stmt W)) (e : Exec W), (∀ v, .write v ∈ stmts → v = w) →
      e.Fate (b.getD []) w → (stmts.foldl Exec.stmt e).Fate (b.getD []) w := by
    intro stmts
    induction stmts with
    | nil => exact fun _ _ h => h
    | cons s stmts ih =>
      intro e hs h
      refine ih _ (fun v hv => hs v (List.mem_cons_of_mem _ hv)) (h.stmt hh hw fun v hv => ?_)
      exact hs v (hv ▸ List.mem_cons_self)
  have hend : (exec b stmts).Fate (b.getD []) w := by
    have hrun := hfate stmts ⟨b.isSome, b.getD [], [], []⟩ hs
      (.inl ⟨rfl, false, by simp [parts]⟩)
    unfold exec Exec.finish
    split
    · exact hrun
    · exact hrun.commit hh hw
  rcases hend with ⟨hdurable, _⟩ | ⟨_, block, string, _, hdurable⟩
  · exact ⟨false, false, hdurable⟩
  · exact ⟨block, string, hdurable⟩

/-- Unless something was made durable or undone, the block's writes are
pending, and the string's if it has written. -/
def Exec.Kept (old : List W) (w : W) (written : Bool) (e : Exec W) : Prop :=
  e.durable = [] → e.undone = [] → e.pending = parts old w true written

theorem foldl_addNew_eq_nil {l as : List W} (h : as.foldl addNew l = []) : l = [] ∧ as = [] := by
  have hmem : ∀ v, v ∉ l ∧ v ∉ as := by
    intro v
    have hv : v ∉ as.foldl addNew l := by simp [h]
    rwa [mem_foldl_addNew, not_or] at hv
  exact ⟨List.eq_nil_iff_forall_not_mem.mpr fun v => (hmem v).1,
    List.eq_nil_iff_forall_not_mem.mpr fun v => (hmem v).2⟩

theorem Exec.Kept.stmt (hw : w ∉ old) {written : Bool} (h : e.Kept old w written)
    {s : Stmt W} (hs : ∀ v, s = .write v → v = w) : (e.stmt s).Kept old w (written || s.isWrite) := by
  have hempty : e.pending = [] → e.durable = [] → e.undone = [] →
      ([] : List W) = parts old w true (written || false) := by
    intro hpending hdurable hundone
    have hparts := h hdurable hundone
    rw [hpending] at hparts
    rw [Bool.or_false, ← hparts]
  intro hdurable hundone
  cases s with
  | write v =>
    obtain rfl := hs v rfl
    rw [Exec.stmt, h hdurable hundone, addNew_parts hw]
    simp [Stmt.isWrite]
  | read | begin => simpa [Stmt.isWrite, Exec.stmt] using h hdurable hundone
  | commit =>
    obtain ⟨hdurable, hpending⟩ := foldl_addNew_eq_nil hdurable
    exact hempty hpending hdurable hundone
  | rollback =>
    obtain ⟨hundone, hpending⟩ := foldl_addNew_eq_nil hundone
    exact hempty hpending hdurable hundone

/-- A string that makes nothing durable and undoes nothing keeps the block's
writes, and its own, pending. -/
theorem exec_pending {b : Option (List W)} (hw : w ∉ b.getD []) {stmts : List (Stmt W)}
    (hs : ∀ v, .write v ∈ stmts → v = w) (hopen : (exec b stmts).inBlock)
    (hdurable : (exec b stmts).durable = []) (hundone : (exec b stmts).undone = []) :
    (exec b stmts).pending = parts (b.getD []) w true (hasWrite stmts) := by
  have hrun : ∀ (stmts : List (Stmt W)) (e : Exec W) (written : Bool),
      (∀ v, .write v ∈ stmts → v = w) → e.Kept (b.getD []) w written →
      (stmts.foldl Exec.stmt e).Kept (b.getD []) w (written || hasWrite stmts) := by
    intro stmts
    induction stmts with
    | nil =>
      intro e written _ h
      rwa [hasWrite, List.any_nil, Bool.or_false]
    | cons s stmts ih =>
      intro e written hs h
      have hnext := ih (e.stmt s) (written || s.isWrite) (fun v hv => hs v (List.mem_cons_of_mem _ hv))
        (h.stmt hw fun v hv => hs v (hv ▸ List.mem_cons_self))
      rwa [Bool.or_assoc] at hnext
  have hkept := hrun stmts ⟨b.isSome, b.getD [], [], []⟩ false hs fun _ _ => by simp [parts]
  have hfinish : exec b stmts = stmts.foldl Exec.stmt ⟨b.isSome, b.getD [], [], []⟩ := by
    unfold exec Exec.finish at hopen ⊢
    split at hopen
    next h => rw [if_pos h]
    next => cases hopen
  rw [hfinish] at hdurable hundone ⊢
  exact hkept hdurable hundone

end Fate

end HeliosProxy.Postgres
