import HeliosProxy.Tenancy.Total
import HeliosProxy.Text.Chars

/-!
# Which layouts of a statement are filtered

The transformer searches the text for a keyword with a space on each side and reads the
tables between the keywords.  It reports exactly the tables that this reading finds; of the
layouts of one statement it finds some, and lets the others pass unfiltered.
-/

namespace HeliosProxy.Tenancy

open Text TenantQueryTransformer List Option

/-- The transformation names `t` among the tables it filters. -/
def Reported (U : UnicodeTables) (x : TenantQueryTransformer) (query tenant : Str)
    (isolation : IsolationStrategy) (t : Str) : Prop :=
  ∃ res, x.transform U query tenant isolation = some res ∧ res.transformed = true ∧
    t ∈ res.filteredTables

variable {U : UnicodeTables} {x : TenantQueryTransformer} {query tenant database column t : Str}

theorem reported_of_extracted {tables : List Str} (h : extracted U query = some tables) :
    Reported U x query tenant (.row database column) t ↔
      t ∈ tables.filter (x.requiresFiltering U) ∧ CutsForFilter U query column := by
  rw [Reported, transform_row, h, Option.bind_some]
  cases hfiltered : tables.filter (x.requiresFiltering U) with
  | nil =>
    refine iff_of_false ?_ fun h => absurd h.1 not_mem_nil
    rintro ⟨_, ⟨⟩, hpassed, -⟩
    cases hpassed
  | cons u us =>
    rw [show CutsForFilter U query column ↔ (filtered U x query tenant column (u :: us)).isSome
      from filtered_isSome.symm]
    constructor
    · rintro ⟨res, hres, -, hmem⟩
      exact ⟨(filtered_eq_some hres).2 ▸ hmem, isSome_iff_exists.mpr ⟨res, hres⟩⟩
    · rintro ⟨hmem, hsome⟩
      obtain ⟨res, hres⟩ := isSome_iff_exists.mp hsome
      exact ⟨res, hres, (filtered_eq_some hres).1, (filtered_eq_some hres).2.symm ▸ hmem⟩

/-- A table is reported exactly where the text is read as naming it, it is to be filtered, and
the text can be cut where its keywords were found. -/
theorem reported_iff (U : UnicodeTables) (x : TenantQueryTransformer) (query tenant database column t : Str) :
    Reported U x query tenant (.row database column) t ↔
      Names U query t ∧ x.requiresFiltering U t = true ∧ x.Cuttable U query (.row database column) := by
  rw [Cuttable, ← extracted_isSome]
  cases hextracted : extracted U query with
  | none =>
    refine iff_of_false ?_ fun h => Bool.false_ne_true h.2.2.1
    rintro ⟨_, hres, -⟩
    rw [transform_row, hextracted] at hres
    cases hres
  | some tables =>
    rw [reported_of_extracted hextracted, mem_filter, mem_extracted hextracted, and_assoc]
    refine and_congr_right fun hnames => and_congr_right fun hrequires => ?_
    exact ⟨fun h => ⟨rfl, fun _ => h⟩, fun h => h.2 ⟨t, hnames, hrequires⟩⟩

section Example

def usersRegistered : TenantQueryTransformer :=
  TenantQueryTransformer.new.registerTables .ascii ["users"] "tenant_id"

def byTenantId : IsolationStrategy := .row "public" "tenant_id"

/-- A list behind `FROM`, with line ends in front of the statement and in the list. -/
theorem reported_in_list :
    Names .ascii "\n select a from orders o,\n\"users\" u where a = 'é'" "users" ∧
      usersRegistered.requiresFiltering .ascii "users" = true ∧
      usersRegistered.Cuttable .ascii "\n select a from orders o,\n\"users\" u where a = 'é'" byTenantId :=
  (reported_iff .ascii usersRegistered _ "acme" _ _ _).mp ⟨_, rfl, rfl, by decide⟩

/-- A line end in front of `FROM` hides the table. -/
theorem not_reported_in_every_layout :
    ¬ ∀ text, LaidOut ["SELECT", "*", "FROM", "users"] text →
      Reported .ascii usersRegistered text "acme" byTenantId "users" := by
  intro h
  have hgap : ∀ c, isSpace c = true → Gap [c] := fun c hc => .blank hc .nil
  have hlaid : LaidOut ["SELECT", "*", "FROM", "users"]
      "SELECT *\nFROM users" :=
    .mk .nil (.cons (hgap ' ' rfl) (by decide) (.cons (hgap '\n' rfl) (by decide)
      (.cons (hgap ' ' rfl) (by decide) .nil)))
  obtain ⟨res, hres, htrue, -⟩ := h _ hlaid
  have hrun : (usersRegistered.transform .ascii "SELECT *\nFROM users" "acme"
      byTenantId).map TransformResult.transformed = some false := by decide
  rw [hres, map_some, htrue] at hrun
  cases hrun

end Example

end HeliosProxy.Tenancy
