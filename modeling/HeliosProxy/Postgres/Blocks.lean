import Mathlib

/-!
# Transaction blocks

The status a backend reports after a message, as far as it follows from what the
statements of the message do to the transaction block.
-/

namespace HeliosProxy.Postgres

/-- The status of a `ReadyForQuery`. -/
inductive BlockStatus
  | idle
  | inBlock
  | failed
deriving DecidableEq

/-- What a statement does to the block it runs in.  `COMMIT` and `ROLLBACK` may open
the next transaction themselves (`AND CHAIN`). -/
inductive BlockStmt
  | begin
  | commit (chain : Bool)
  | rollback (chain : Bool)
  | rollbackTo
  | other
  /-- It raises an error. -/
  | fails
deriving DecidableEq

/-- The block in the course of a message, or of the messages up to a `Sync`. -/
structure Block where
  status : BlockStatus
  /-- The open transaction was opened in it. -/
  opened : Bool
deriving DecidableEq

namespace Block

def ends (b : Block) (chain : Bool) : Block :=
  if b.status = .idle then b else if chain then ⟨.inBlock, true⟩ else ⟨.idle, false⟩

/-- A failed block takes nothing but its end and `ROLLBACK TO`. -/
def stmt (b : Block) : BlockStmt → Block
  | .begin => if b.status = .idle then ⟨.inBlock, true⟩ else b
  | .commit chain | .rollback chain => b.ends chain
  | .rollbackTo => if b.status = .failed then { b with status := .inBlock } else b
  | .other => b
  | .fails => if b.status = .inBlock then { b with status := .failed } else b

def run (b : Block) (stmts : List BlockStmt) : Block := stmts.foldl stmt b

/-- An open transaction was opened in the messages the block is followed through. -/
def OpenedHere (b : Block) : Prop := b.status ≠ .idle → b.opened = true

theorem OpenedHere.ends {b : Block} (h : b.OpenedHere) (chain : Bool) : (b.ends chain).OpenedHere := by
  rw [Block.ends]
  split
  · exact h
  · cases chain
    · intro hidle
      exact absurd rfl hidle
    · exact fun _ => rfl

theorem OpenedHere.stmt {b : Block} (h : b.OpenedHere) (s : BlockStmt) : (b.stmt s).OpenedHere := by
  cases s with
  | begin =>
    rw [Block.stmt]
    split
    · exact fun _ => rfl
    · exact h
  | commit chain | rollback chain => exact h.ends chain
  | rollbackTo =>
    rw [Block.stmt]
    split
    · next hfailed => exact fun _ => h (by rw [hfailed]; decide)
    · exact h
  | other => exact h
  | fails =>
    rw [Block.stmt]
    split
    · next hblock => exact fun _ => h (by rw [hblock]; decide)
    · exact h

theorem OpenedHere.run {b : Block} (h : b.OpenedHere) (stmts : List BlockStmt) :
    (b.run stmts).OpenedHere := by
  induction stmts generalizing b with
  | nil => exact h
  | cons s stmts ih => exact ih (h.stmt s)

end Block

end HeliosProxy.Postgres
