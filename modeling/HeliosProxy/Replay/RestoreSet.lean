import HeliosProxy.Lib.Overwrites
import HeliosProxy.Replay.SettingsSavepoints

/-!
# The restore set

The committed settings of a session are kept as the `SET` statements that made them,
one slot for each setting, and run again on another backend.  A statement takes the
place of the one before it under the same name.

`tr_guc_name` reads from the text of a `SET` or `RESET` which setting it is about.  It
does not see through quotes inside a name or blanks around its dots, and it takes a name
that starts with `session.` or `role.` for another.

`SET SESSION CHARACTERISTICS` has one slot whichever settings its modes name, and they
have slots of their own besides.  A statement that takes a slot over may then drop a
setting it does not make itself, or come to stand in front of one that it should
overrule.
-/

namespace HeliosProxy.Replay

open Text Journal Postgres Overwrites List Option

/-! ## Statements -/

inductive Dotted : List SavepointName → Str → Prop
  | one (n : SavepointName) : Dotted [n] n.text
  | dot {n : SavepointName} {ns : List SavepointName} {g g' t : Str} (hg : Gap g) (hg' : Gap g')
      (h : Dotted ns t) : Dotted (n :: ns) (n.text ++ (g ++ '.' :: (g' ++ t)))

structure SettingName where
  parts : List SavepointName
  text : Str
  dotted : Dotted parts text

/-- The settings that have an older name (`map_old_guc_names`). -/
def currentName (n : Str) : Str :=
  if n = "sort_mem" then "work_mem"
  else if n = "vacuum_mem" then "maintenance_work_mem"
  else n

def joinDots : List Str → Str
  | [] => []
  | [w] => w
  | w :: ws => w ++ '.' :: joinDots ws

def SettingName.means (n : SettingName) : Str :=
  currentName (joinDots (n.parts.map fun p => p.means.map Char.toLower))

/-- What stands for a setting in a `SET` or a `RESET`. -/
inductive SettingRef
  | setting (n : SettingName)
  | timeZone
  | schema
  | names
  | seed
  | role
  | sessionAuthorization

namespace SettingRef

def keywords : SettingRef → List String
  | .setting _ => []
  | .timeZone => ["TIME", "ZONE"]
  | .schema => ["SCHEMA"]
  | .names => ["NAMES"]
  | .seed => ["SEED"]
  | .role => ["ROLE"]
  | .sessionAuthorization => ["SESSION", "AUTHORIZATION"]

def means : SettingRef → Str
  | .setting n => n.means
  | .timeZone => "timezone"
  | .schema => "search_path"
  | .names => "client_encoding"
  | .seed => "seed"
  | .role => "role"
  | .sessionAuthorization => "session_authorization"

end SettingRef

inductive SettingTarget
  | one (r : SettingRef)
  | characteristics

namespace SettingTarget

def keywords : SettingTarget → List String
  | .one r => r.keywords
  | .characteristics => ["SESSION", "CHARACTERISTICS"]

def nameWords : SettingTarget → List Str
  | .one (.setting n) => [n.text]
  | _ => []

end SettingTarget

def behindName : Str → Bool
  | '/' :: '*' :: _ | '-' :: '-' :: _ => true
  | c :: _ => isSpace c || c == '=' || c == ';'
  | [] => true

def SettingTarget.Behind : SettingTarget → Str → Prop
  | .one (.setting _), rest => behindName rest = true
  | _, rest => rest.head?.all (!identCont ·) = true

/-- A `SET` or `RESET` of the session. -/
structure SettingText where
  verb : String
  /-- The word `SESSION` stands behind the verb. -/
  session : Bool
  target : SettingTarget
  isVerb : verb = "SET" ∨ verb = "RESET" ∧ target ≠ .characteristics
  words : List Str
  spelled : Forall₂ IsKeyword (verb :: (if session then ["SESSION"] else []) ++ target.keywords) words
  body : Str
  laid : LaidOut (words ++ target.nameWords) body
  rest : Str
  behind : target.Behind rest

def SettingText.text (t : SettingText) : Str := t.body ++ t.rest

/-- The name `tr_guc_name` is to read. -/
def SettingText.key (t : SettingText) : Str :=
  match t.target with
  | .one (.setting n) => n.text.map Char.toLower
  | .one r => r.means
  | .characteristics => "session characteristics"

/-- `tr_guc_name` reads the name that is to be read, and PostgreSQL means by it the setting
that the statement is about. -/
def SettingText.NameRead (t : SettingText) : Prop :=
  trGucName t.text = some t.key ∧
    match t.target with
    | .one (.setting n) => n.means = currentName t.key ∧ t.key ≠ "session characteristics"
    | _ => True

instance (t : SettingText) : Decidable t.NameRead := by
  unfold SettingText.NameRead
  exact @instDecidableAnd _ _ _ (by split <;> infer_instance)

/-! ## The set -/

def roleName : Str := "role"

def authName : Str := "session_authorization"

def trIsRoleSet (t : SettingText) : Bool :=
  trGucName t.text = some roleName ∨ trGucName t.text = some authName

/-- What `TrSession` keeps of the committed settings. -/
structure RestoreSet where
  gucs : List SettingText
  gucCapHit : Bool

namespace RestoreSet

/-- The statements a `RESET` of `name` leaves. -/
def survives (name : Str) (g : SettingText) : Bool :=
  trGucName g.text ≠ some name ∧ ¬ (name = authName ∧ trGucName g.text = some roleName)

def trApplyReset (tr : RestoreSet) (name : Str) : RestoreSet :=
  { tr with gucs := tr.gucs.filter (survives name) }

/-- `tr_push_guc`, where the set has at most `cap` statements. -/
def trPushGuc (cap : Nat) (tr : RestoreSet) (t : SettingText) : RestoreSet :=
  if tr.gucCapHit && !trIsRoleSet t then tr
  else if cap ≤ tr.gucs.length && !trIsRoleSet t then { tr with gucCapHit := true }
  else { tr with gucs := tr.gucs ++ [t] }

/-- `SET SESSION AUTHORIZATION` ends a `SET ROLE`. -/
def endRole (tr : RestoreSet) (name : Option Str) : RestoreSet :=
  if name = some authName then tr.trApplyReset roleName else tr

def slot (tr : RestoreSet) (name : Option Str) : Option Nat :=
  name.bind fun n => tr.gucs.findIdx? fun g => trGucName g.text = some n

def trApplySet (cap : Nat) (tr : RestoreSet) (t : SettingText) : RestoreSet :=
  let name := trGucName t.text
  let tr := tr.endRole name
  match tr.slot name with
  | some i => { tr with gucs := tr.gucs.set i t }
  | none => tr.trPushGuc cap t

end RestoreSet

inductive SettingsOp
  | statement (t : SettingText)
  | resetAll
  | discardAll

/-- `tr_apply_guc_op` of what `tr_guc_op` reads. -/
def RestoreSet.trApplyGucOp (cap : Nat) (tr : RestoreSet) : SettingsOp → RestoreSet
  | .statement t =>
    if t.verb = "RESET" then (trGucName t.text).elim tr tr.trApplyReset else tr.trApplySet cap t
  | .resetAll => ⟨tr.gucs.filter trIsRoleSet, false⟩
  | .discardAll => ⟨[], false⟩

/-! ## What the statements do -/

inductive TransactionMode
  | isolation
  | readOnly
  | deferrable

def TransactionMode.setting : TransactionMode → Str
  | .isolation => "default_transaction_isolation"
  | .readOnly => "default_transaction_read_only"
  | .deferrable => "default_transaction_deferrable"

/-- How PostgreSQL reads the values of statements, and the settings of a fresh session.  A
value may depend on the settings in front of its statement, as that of `datestyle` does on
itself. -/
structure SettingValues (V : Type) where
  fresh : Str → V
  reads (name rest : Str) : List Str
  valueOf (σ : Str → V) (name rest : Str) : V
  depends : ∀ σ σ' name rest, (∀ k ∈ reads name rest, σ k = σ' k) → valueOf σ name rest = valueOf σ' name rest
  modesOf : Str → List (TransactionMode × V)

variable {V : Type} (pg : SettingValues V)

/-- A change of `n`, which for the session authorization is one of the role too. -/
def withRole (n : Str) (v : V) : List (Str × V) :=
  (n, v) :: (if n = authName then [(roleName, pg.fresh roleName)] else [])

/-- What a `SET` writes on the settings `σ`. -/
def SettingText.writesOn (σ : Str → V) (t : SettingText) : List (Str × V) :=
  match t.target with
  | .one r => withRole pg r.means (pg.valueOf σ r.means t.rest)
  | .characteristics => (pg.modesOf t.rest).map fun m => (m.1.setting, m.2)

/-- What a `SET` writes on a fresh session. -/
def SettingText.writes (t : SettingText) : List (Str × V) := t.writesOn pg pg.fresh

/-- The value that a `SET` gives does not depend on the settings. -/
def SettingText.Fixed (t : SettingText) : Prop :=
  match t.target with
  | .one r => pg.reads r.means t.rest = []
  | .characteristics => True

instance (t : SettingText) : Decidable (t.Fixed pg) := by
  unfold SettingText.Fixed
  split <;> infer_instance

/-- What a `RESET` writes. -/
def SettingText.resets (t : SettingText) : List (Str × V) :=
  match t.target with
  | .one r => withRole pg r.means (pg.fresh r.means)
  | .characteristics => []

def SettingsOp.execute (σ : Str → V) : SettingsOp → Str → V
  | .statement t => overwrite σ (if t.verb = "RESET" then t.resets pg else t.writesOn pg σ)
  | .resetAll => fun n => if n = roleName ∨ n = authName then σ n else pg.fresh n
  | .discardAll => pg.fresh

/-- The settings behind the statements of the set, run in order on a fresh session. -/
def RestoreSet.restored (tr : RestoreSet) : Str → V :=
  tr.gucs.foldl (fun σ g => overwrite σ (g.writesOn pg σ)) pg.fresh

/-- What the statements write, one behind the other. -/
def RestoreSet.written (tr : RestoreSet) : Str → V := overwrite pg.fresh (tr.gucs.flatMap (·.writes pg))

structure SettingsSession (V : Type) where
  tr : RestoreSet
  values : Str → V

def SettingsSession.start : SettingsSession V := ⟨⟨[], false⟩, pg.fresh⟩

def SettingsSession.step (cap : Nat) (s : SettingsSession V) (op : SettingsOp) : Option (SettingsSession V) :=
  some ⟨s.tr.trApplyGucOp cap op, op.execute pg s.values⟩

/-! ## The condition -/

/-- A statement that takes the slot `i` over writes what the one in it did, and no
statement behind it writes any of that. -/
def RestoreSet.Replaces (tr : RestoreSet) (t : SettingText) (i : Nat) : Prop :=
  (∀ g ∈ (tr.gucs.drop i).head?, keys (g.writes pg) ⊆ keys (t.writes pg)) ∧
    ∀ g ∈ tr.gucs.drop (i + 1), ∀ k ∈ keys (t.writes pg), k ∉ keys (g.writes pg)

def RestoreSet.Followed (tr : RestoreSet) : SettingsOp → Prop
  | .statement t =>
    t.NameRead ∧
      if t.verb = "RESET" then
        ∀ g ∈ tr.gucs, RestoreSet.survives t.key g → ∀ k ∈ keys (t.resets pg), k ∉ keys (g.writes pg)
      else
        t.Fixed pg ∧ ∀ i ∈ (tr.endRole (some t.key)).slot (some t.key), (tr.endRole (some t.key)).Replaces pg t i
  | .resetAll | .discardAll => True

instance (tr : RestoreSet) (t : SettingText) (i : Nat) : Decidable (tr.Replaces pg t i) :=
  inferInstanceAs (Decidable (_ ∧ _))

instance (tr : RestoreSet) : (op : SettingsOp) → Decidable (tr.Followed pg op)
  | .statement t => inferInstanceAs (Decidable (t.NameRead ∧ if t.verb = "RESET" then _ else _))
  | .resetAll => isTrue trivial
  | .discardAll => isTrue trivial

/-! ## What a statement writes, by its name -/

variable {pg} in
theorem SettingText.Fixed.writesOn {t : SettingText} (h : t.Fixed pg) (σ : Str → V) :
    t.writesOn pg σ = t.writes pg := by
  unfold SettingText.Fixed at h
  unfold SettingText.writes SettingText.writesOn
  split
  · rename_i r hr
    rw [hr] at h
    rw [pg.depends σ pg.fresh r.means t.rest (by rw [h]; exact nofun)]
  · rfl

theorem RestoreSet.restored_eq (tr : RestoreSet) (h : ∀ g ∈ tr.gucs, g.Fixed pg) :
    tr.restored pg = tr.written pg := by
  unfold RestoreSet.restored RestoreSet.written
  generalize tr.gucs = gucs at h
  generalize pg.fresh = σ
  induction gucs generalizing σ with
  | nil => rfl
  | cons g gucs ih =>
    obtain ⟨hg, hgucs⟩ := forall_mem_cons.mp h
    rw [foldl_cons, ih hgucs, hg.writesOn, flatMap_cons, overwrite_append]

def touched (k : Str) : List Str := currentName k :: (if currentName k = authName then [roleName] else [])

variable {k : Str}

theorem currentName_eq_role : currentName k = roleName ↔ k = roleName := by
  unfold currentName
  split
  · rename_i h
    rw [h]
    decide
  split
  · rename_i h
    rw [h]
    decide
  · rfl

theorem currentName_eq_auth : currentName k = authName ↔ k = authName := by
  unfold currentName
  split
  · rename_i h
    rw [h]
    decide
  split
  · rename_i h
    rw [h]
    decide
  · rfl

theorem keys_withRole (n : Str) (v : V) : keys (withRole pg n v) = n :: (if n = authName then [roleName] else []) := by
  unfold withRole
  split <;> rfl

variable {t : SettingText}

theorem SettingText.currentName_key (h : t.NameRead) {r : SettingRef} (hr : t.target = .one r) :
    r.means = currentName t.key := by
  obtain ⟨-, hform⟩ := h
  simp only [hr] at hform
  cases r with
  | setting n => exact hform.1
  | _ =>
    rw [SettingText.key, hr]
    rfl

theorem SettingText.keys_writes (h : t.NameRead) (ht : t.target ≠ .characteristics) :
    keys (t.writes pg) = touched t.key := by
  cases hr : t.target with
  | characteristics => exact absurd hr ht
  | one r => simp only [SettingText.writes, SettingText.writesOn, hr, keys_withRole, touched, SettingText.currentName_key h hr]

theorem SettingText.keys_resets (h : t.NameRead) (ht : t.target ≠ .characteristics) :
    keys (t.resets pg) = touched t.key := by
  cases hr : t.target with
  | characteristics => exact absurd hr ht
  | one r => simp only [SettingText.resets, hr, keys_withRole, touched, SettingText.currentName_key h hr]

theorem SettingText.key_ne (h : t.NameRead) (ht : t.target ≠ .characteristics) :
    t.key ≠ "session characteristics" := by
  obtain ⟨-, hform⟩ := h
  cases hr : t.target with
  | characteristics => exact absurd hr ht
  | one r =>
    simp only [hr] at hform
    cases r with
    | setting n => exact hform.2
    | _ =>
      rw [SettingText.key, hr]
      decide

theorem SettingText.key_characteristics (ht : t.target = .characteristics) :
    t.key = "session characteristics" := by
  rw [SettingText.key, ht]

theorem SettingText.keys_of_key (h : t.NameRead) (hkey : t.key = k)
    (hk : k ≠ "session characteristics") : keys (t.writes pg) = touched k := by
  rw [← hkey]
  exact SettingText.keys_writes pg h fun ht => hk (hkey ▸ SettingText.key_characteristics ht)

theorem TransactionMode.setting_ne (m : TransactionMode) : m.setting ≠ roleName ∧ m.setting ≠ authName := by
  cases m <;> decide

theorem SettingText.notMem_of_not_role (h : t.NameRead) (hrole : trIsRoleSet t = false) {n : Str}
    (hn : n = roleName ∨ n = authName) : n ∉ keys (t.writes pg) := by
  rw [trIsRoleSet, h.1, decide_eq_false_iff_not, not_or, Option.some.injEq, Option.some.injEq] at hrole
  by_cases ht : t.target = .characteristics
  · rw [SettingText.writes, SettingText.writesOn, ht]
    intro hmem
    obtain ⟨p, hp, rfl⟩ := List.mem_map.mp hmem
    obtain ⟨⟨m, v⟩, hm, rfl⟩ := List.mem_map.mp hp
    exact hn.elim m.setting_ne.1 m.setting_ne.2
  · rw [SettingText.keys_writes pg h ht, touched, if_neg fun hc => hrole.2 (currentName_eq_auth.mp hc),
      mem_singleton]
    rintro rfl
    rcases hn with hn | hn
    · exact hrole.1 (currentName_eq_role.mp hn)
    · exact hrole.2 (currentName_eq_auth.mp hn)

theorem SettingText.mem_of_role (h : t.NameRead) (hrole : trIsRoleSet t) {n : Str}
    (hn : n ∈ keys (t.writes pg)) : n = roleName ∨ n = authName := by
  rw [trIsRoleSet, h.1, decide_eq_true_eq, Option.some.injEq, Option.some.injEq] at hrole
  rcases hrole with hkey | hkey
  · rw [SettingText.keys_of_key pg h hkey (by decide)] at hn
    exact .inl (mem_singleton.mp hn)
  · rw [SettingText.keys_of_key pg h hkey (by decide)] at hn
    rcases mem_cons.mp hn with hn | hn
    · exact .inr hn
    · exact .inl (mem_singleton.mp hn)

/-- What a `RESET` takes out wrote no more than what it resets. -/
theorem SettingText.keys_of_not_survives {g : SettingText} (h : g.NameRead)
    (hk : k ≠ "session characteristics") (hg : RestoreSet.survives k g = false) :
    keys (g.writes pg) ⊆ touched k := by
  rw [RestoreSet.survives, h.1, decide_eq_false_iff_not, not_and_or, not_not, not_not,
    Option.some.injEq, Option.some.injEq] at hg
  rcases hg with hkey | ⟨rfl, hkey⟩
  · rw [SettingText.keys_of_key pg h hkey hk]
    exact List.Subset.refl _
  · rw [SettingText.keys_of_key pg h hkey (by decide)]
    decide

/-! ## The invariant -/

/-- The names of the statements are read, and they give the settings the session has: all of them unless
the cap was hit, and the role and the authorization always. -/
structure SettingsSession.Restores (s : SettingsSession V) : Prop where
  named : ∀ g ∈ s.tr.gucs, g.NameRead
  fixed : ∀ g ∈ s.tr.gucs, g.Fixed pg
  agrees : ∀ n, s.tr.gucCapHit = false ∨ n = roleName ∨ n = authName → s.tr.written pg n = s.values n

variable {pg} {s : SettingsSession V}

theorem SettingsSession.Restores.resetAll (h : s.Restores pg) (cap : Nat) :
    SettingsSession.Restores pg
      ⟨s.tr.trApplyGucOp cap .resetAll, SettingsOp.execute pg s.values .resetAll⟩ where
  named g hg := h.named g (mem_filter.mp hg).1
  fixed g hg := h.fixed g (mem_filter.mp hg).1
  agrees n _ := by
    show overwrite pg.fresh ((s.tr.gucs.filter trIsRoleSet).flatMap (·.writes pg)) n =
      if n = roleName ∨ n = authName then s.values n else pg.fresh n
    split
    · rename_i hn
      rw [← h.agrees n (.inr hn)]
      exact overwrite_filter (fun g hg hrole => SettingText.notMem_of_not_role pg (h.named g hg) hrole hn) _
    · rename_i hn
      refine overwrite_of_notMem (notMem_keys_flatMap fun g hg hk => hn ?_) _
      obtain ⟨hg, hrole⟩ := mem_filter.mp hg
      exact SettingText.mem_of_role pg (h.named g hg) hrole hk

theorem SettingText.resets_fresh (t : SettingText) : ∀ p ∈ t.resets pg, p.2 = pg.fresh p.1 := by
  unfold SettingText.resets
  split
  · intro p hp
    rcases mem_cons.mp hp with rfl | hp
    · rfl
    · split at hp
      · rw [mem_singleton.mp hp]
      · cases hp
  · intro p hp
    cases hp

theorem SettingsSession.Restores.reset (h : s.Restores pg)
    (hname : t.NameRead) (ht : t.target ≠ .characteristics)
    (hothers : ∀ g ∈ s.tr.gucs, RestoreSet.survives t.key g → ∀ k ∈ keys (t.resets pg), k ∉ keys (g.writes pg)) :
    SettingsSession.Restores pg ⟨s.tr.trApplyReset t.key, overwrite s.values (t.resets pg)⟩ where
  named g hg := h.named g (mem_filter.mp hg).1
  fixed g hg := h.fixed g (mem_filter.mp hg).1
  agrees n hn := by
    show overwrite pg.fresh ((s.tr.gucs.filter (RestoreSet.survives t.key)).flatMap (·.writes pg)) n =
      overwrite s.values (t.resets pg) n
    by_cases hreset : n ∈ keys (t.resets pg)
    · rw [overwrite_of_mem t.resets_fresh hreset]
      refine overwrite_of_notMem (notMem_keys_flatMap fun g hg => ?_) _
      obtain ⟨hg, hsurvives⟩ := mem_filter.mp hg
      exact hothers g hg hsurvives n hreset
    · rw [overwrite_of_notMem hreset, ← h.agrees n hn]
      refine overwrite_filter (fun g hg hgone hk => hreset ?_) _
      rw [SettingText.keys_resets pg hname ht]
      exact SettingText.keys_of_not_survives pg (h.named g hg) (SettingText.key_ne hname ht) hgone hk

/-- The statements of an earlier `SET ROLE` gone, the rest of the settings are as they were. -/
theorem SettingsSession.Restores.endRole (h : s.Restores pg)
    (hname : t.NameRead) : (∀ g ∈ (s.tr.endRole (some t.key)).gucs, g.NameRead ∧ g.Fixed pg) ∧
      ∀ n, s.tr.gucCapHit = false ∨ n = roleName ∨ n = authName → n ∉ keys (t.writes pg) →
        (s.tr.endRole (some t.key)).written pg n = s.values n := by
  unfold RestoreSet.endRole
  split
  · rename_i hkey
    refine ⟨fun g hg => ⟨h.named g (mem_filter.mp hg).1, h.fixed g (mem_filter.mp hg).1⟩, fun n hn hwrites => ?_⟩
    rw [← h.agrees n hn]
    refine overwrite_filter (fun g hg hgone hk => hwrites ?_) _
    have hrole := SettingText.keys_of_not_survives pg (h.named g hg) (by decide) hgone hk
    rw [SettingText.keys_of_key pg hname (Option.some.inj hkey) (by decide)]
    rw [mem_singleton.mp hrole]
    decide
  · exact ⟨fun g hg => ⟨h.named g hg, h.fixed g hg⟩, fun n hn _ => h.agrees n hn⟩

@[simp] theorem RestoreSet.endRole_gucCapHit (tr : RestoreSet) (name : Option Str) :
    (tr.endRole name).gucCapHit = tr.gucCapHit := by
  unfold RestoreSet.endRole
  split <;> rfl

theorem RestoreSet.endRole_of_not_role (hname : t.NameRead) (hrole : trIsRoleSet t = false)
    (tr : RestoreSet) : tr.endRole (some t.key) = tr := by
  rw [trIsRoleSet, hname.1, decide_eq_false_iff_not, not_or] at hrole
  exact if_neg hrole.2

section

variable (h : s.Restores pg)
include h

theorem SettingsSession.Restores.replace
    (hname : t.NameRead) (hfixed : t.Fixed pg) {i : Nat} (hi : i < (s.tr.endRole (some t.key)).gucs.length)
    (hreplaces : (s.tr.endRole (some t.key)).Replaces pg t i) :
    SettingsSession.Restores pg
      ⟨{ s.tr.endRole (some t.key) with gucs := (s.tr.endRole (some t.key)).gucs.set i t },
        overwrite s.values (t.writes pg)⟩ := by
  obtain ⟨hgs, hkept⟩ := h.endRole hname
  have hall : ∀ g ∈ (s.tr.endRole (some t.key)).gucs.set i t, g.NameRead ∧ g.Fixed pg := by
    intro g hg
    rcases mem_or_eq_of_mem_set hg with hg | rfl
    · exact hgs g hg
    · exact ⟨hname, hfixed⟩
  refine ⟨fun g hg => (hall g hg).1, fun g hg => (hall g hg).2, fun n hn => ?_⟩
  · rw [RestoreSet.endRole_gucCapHit] at hn
    have hkept := hkept n hn
    generalize s.tr.endRole (some t.key) = tr at hi hreplaces hkept
    have hdrop : tr.gucs.drop i = tr.gucs[i] :: tr.gucs.drop (i + 1) := drop_eq_getElem_cons hi
    have hsplit : tr.gucs = tr.gucs.take i ++ tr.gucs[i] :: tr.gucs.drop (i + 1) := by
      rw [← hdrop, take_append_drop]
    rw [set_eq_take_append_cons_drop, if_pos hi]
    refine overwrite_replace (hreplaces.1 _ (by rw [hdrop]; rfl)) (fun g hg hk => hreplaces.2 g hg n hk) ?_
    rw [← hsplit]
    exact hkept

theorem SettingsSession.Restores.push (hname : t.NameRead) (hfixed : t.Fixed pg) (cap : Nat) : SettingsSession.Restores pg
      ⟨(s.tr.endRole (some t.key)).trPushGuc cap t, overwrite s.values (t.writes pg)⟩ := by
  obtain ⟨hgs, hkept⟩ := h.endRole hname
  have hdropped : trIsRoleSet t = false → ∀ tr : RestoreSet, tr.gucs = s.tr.gucs → tr.gucCapHit →
      SettingsSession.Restores pg ⟨tr, overwrite s.values (t.writes pg)⟩ := by
    intro hrole tr hgucs hcap
    refine ⟨hgucs ▸ h.named, hgucs ▸ h.fixed, fun n hn => ?_⟩
    have hn : n = roleName ∨ n = authName := hn.resolve_left (by simp [hcap])
    show overwrite pg.fresh (tr.gucs.flatMap (·.writes pg)) n = overwrite s.values (t.writes pg) n
    rw [hgucs, overwrite_of_notMem (SettingText.notMem_of_not_role pg hname hrole hn)]
    exact h.agrees n (.inr hn)
  unfold RestoreSet.trPushGuc
  split
  · rename_i hcap
    rw [Bool.and_eq_true, Bool.not_eq_true'] at hcap
    rw [RestoreSet.endRole_of_not_role hname hcap.2] at hcap ⊢
    exact hdropped hcap.2 _ rfl hcap.1
  split
  · rename_i hcap
    rw [Bool.and_eq_true, Bool.not_eq_true'] at hcap
    rw [RestoreSet.endRole_of_not_role hname hcap.2]
    exact hdropped hcap.2 _ rfl rfl
  · have hall : ∀ g ∈ (s.tr.endRole (some t.key)).gucs ++ [t], g.NameRead ∧ g.Fixed pg :=
      forall_mem_append.mpr ⟨hgs, forall_mem_singleton.mpr ⟨hname, hfixed⟩⟩
    refine ⟨fun g hg => (hall g hg).1, fun g hg => (hall g hg).2, fun n hn => ?_⟩
    · rw [RestoreSet.endRole_gucCapHit] at hn
      exact overwrite_concat (hkept n hn)

theorem SettingsSession.Restores.set (hname : t.NameRead) (hfixed : t.Fixed pg) (cap : Nat)
    (hreplaces : ∀ i ∈ (s.tr.endRole (some t.key)).slot (some t.key),
      (s.tr.endRole (some t.key)).Replaces pg t i) :
    SettingsSession.Restores pg ⟨s.tr.trApplySet cap t, overwrite s.values (t.writes pg)⟩ := by
  rw [RestoreSet.trApplySet, hname.1]
  split
  · rename_i i hi
    exact h.replace hname hfixed (findIdx?_eq_some_iff_getElem.mp hi).1 (hreplaces i hi)
  · exact h.push hname hfixed cap

theorem SettingsSession.Restores.step {s' : SettingsSession V} {cap : Nat} {op : SettingsOp}
    (hop : s.tr.Followed pg op) (hstep : s.step pg cap op = some s') : s'.Restores pg := by
  cases hstep
  cases op with
  | resetAll => exact h.resetAll cap
  | discardAll => exact ⟨nofun, nofun, fun n _ => rfl⟩
  | statement t =>
    obtain ⟨hname, hrest⟩ := hop
    rw [RestoreSet.trApplyGucOp, SettingsOp.execute]
    split
    · rename_i hverb
      rw [if_pos hverb] at hrest
      rw [hname.1]
      have ht : t.target ≠ .characteristics := by
        rcases t.isVerb with hset | ⟨-, ht⟩
        · rw [hset] at hverb
          exact absurd hverb (by decide)
        · exact ht
      exact h.reset hname ht hrest
    · rename_i hverb
      rw [if_neg hverb] at hrest
      rw [hrest.1.writesOn]
      exact h.set hname hrest.1 cap hrest.2

end

/-- A `SET` as it is usually written. -/
def spacedSet (target : SettingTarget) (rest : Str) (hb : target.Behind rest) : SettingText where
  verb := "SET"
  session := false
  target := target
  isVerb := .inl rfl
  words := ("SET" :: target.keywords).map String.toList
  spelled := forall₂_map_right_iff.mpr (forall₂_same.mpr fun k _ => by simp [IsKeyword, eqIgnoreCase])
  body := "SET" ++ (target.keywords.map String.toList ++ target.nameWords).flatMap (' ' :: ·)
  laid := .mk (g := []) .nil (laidBehind_spaced _)
  rest := rest
  behind := hb

def setCharacteristics (modes : String) (h : modes.toList.head?.all (!identCont ·) = true) : SettingsOp :=
  .statement (spacedSet .characteristics modes.toList h)

def twoModes : SettingValues Str where
  fresh _ := []
  reads name _ := if name = "datestyle" then [name] else []
  valueOf σ name rest := if name = "datestyle" then rest ++ σ name else rest
  depends σ σ' name rest h := by
    split
    · rename_i hname
      rw [h name (by rw [if_pos hname]; exact mem_singleton_self name)]
    · rfl
  modesOf rest :=
    if rest = " AS TRANSACTION ISOLATION LEVEL SERIALIZABLE" then [(.isolation, "serializable")]
    else if rest = " AS TRANSACTION READ ONLY" then [(.readOnly, "on")]
    else []

def serializableThenReadOnly : List SettingsOp :=
  [setCharacteristics " AS TRANSACTION ISOLATION LEVEL SERIALIZABLE" rfl,
    setCharacteristics " AS TRANSACTION READ ONLY" rfl]

def roleThenAuthorization : List SettingsOp :=
  [.statement (spacedSet (.one .role) " a" rfl), .statement (spacedSet (.one .timeZone) " 'UTC'" rfl),
    .statement (spacedSet (.one .sessionAuthorization) " b" rfl),
    .statement (spacedSet (.one .timeZone) " 'CET'" rfl)]

end HeliosProxy.Replay
