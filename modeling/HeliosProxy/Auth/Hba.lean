import HeliosProxy.Auth.Scram
import HeliosProxy.Lib.Bytes

/-!
# Host-based admission

The first rule that names the user, the database and the address of a client decides.  A
rule's address is a text; how an address is read from a text is left to a parameter.  An
address of one family never meets a rule of the other, so a client of a dual-stack listener
passes by the rules that name its IPv4 address.
-/

namespace HeliosProxy.Auth

open Text Scram

inductive IpAddr
  | v4 (bits : BitVec 32)
  | v6 (bits : BitVec 128)
deriving DecidableEq

/-- The form `::ffff:a.b.c.d` of an IPv4 address. -/
def IpAddr.mapped (a : BitVec 32) : IpAddr := .v6 (0xffff00000000 ||| a.zeroExtend 128)

inductive HbaAction
  | allow
  | reject
deriving DecidableEq

structure HbaRule where
  action : HbaAction
  user : Str
  database : Str
  address : Str

/-- The comparison of `hba_addr_matches`, for either family. -/
def maskedEq {w : Nat} (bits : Nat) (net ip : BitVec w) : Bool :=
  let mask := if bits = 0 then 0 else BitVec.allOnes w <<< (w - bits)
  net &&& mask = ip &&& mask

section

variable (parse : Str → Option IpAddr)

def hbaAddrMatches (spec : Str) (ip : IpAddr) : Bool :=
  if spec = "all" then true
  else
    match splitOnce '/' spec with
    | some (net, bits) =>
      match Decimal.parseBelow (2 ^ 32) bits, parse net, ip with
      | some bits, some (.v4 n), .v4 i => if bits ≤ 32 then maskedEq bits n i else false
      | some bits, some (.v6 n), .v6 i => if bits ≤ 128 then maskedEq bits n i else false
      | _, _, _ => false
    | none => parse spec = some ip

def HbaRule.applies (r : HbaRule) (user database : Str) : Bool :=
  (r.user = "all" || r.user = user) && (r.database = "all" || r.database = database)

def hbaAdmits (rules : List HbaRule) (ip : IpAddr) (user database : Str) : Bool :=
  match rules with
  | [] => true
  | r :: rules =>
    if r.applies user database && hbaAddrMatches parse r.address ip then r.action = .allow
    else hbaAdmits rules ip user database

end

theorem maskedEq_iff {w bits : Nat} (h : bits ≤ w) (net ip : BitVec w) :
    maskedEq bits net ip ↔ ∀ k < bits, net.getMsbD k = ip.getMsbD k := by
  have hb (k : Nat) :
    (if bits = 0 then 0 else BitVec.allOnes w <<< (w - bits)).getMsbD k = decide (k < bits) := by
    split
    case isTrue hn => simp [hn]
    case isFalse =>
      rw [BitVec.getMsbD_shiftLeft, BitVec.getMsbD_allOnes]
      exact decide_eq_decide.mpr (by omega)
  simp only [maskedEq, decide_eq_true_eq]
  constructor
  · intro hs k hk
    have hh := congrArg (BitVec.getMsbD · k) hs
    simpa only [BitVec.getMsbD_and, hb, hk, decide_true, Bool.and_true] using hh
  · intro ha
    refine BitVec.eq_of_getMsbD_eq fun k _ => ?_
    rw [BitVec.getMsbD_and, BitVec.getMsbD_and, hb]
    by_cases hk : k < bits
    · rw [ha k hk]
    · simp [hk]

section

variable {parse : Str → Option IpAddr}

/-- The addresses are of one family and agree in the first `bits` bits. -/
def AgreeOn (bits : Nat) : IpAddr → IpAddr → Prop
  | .v4 n, .v4 i => bits ≤ 32 ∧ ∀ k < bits, n.getMsbD k = i.getMsbD k
  | .v6 n, .v6 i => bits ≤ 128 ∧ ∀ k < bits, n.getMsbD k = i.getMsbD k
  | _, _ => False

/-- `spec` is the address or a network that it lies in. -/
def Names (parse : Str → Option IpAddr) (spec : Str) (ip : IpAddr) : Prop :=
  match splitOnce '/' spec with
  | some (net, width) =>
    ∃ bits ∈ Decimal.parseBelow (2 ^ 32) width, ∃ n ∈ parse net, AgreeOn bits n ip
  | none => parse spec = some ip

theorem hbaAddrMatches_iff {spec : Str} {ip : IpAddr} :
    hbaAddrMatches parse spec ip ↔ spec = "all" ∨ Names parse spec ip := by
  unfold hbaAddrMatches Names
  split
  case isTrue ha => simp [ha]
  case isFalse ho =>
    rw [or_iff_right ho]
    split
    · split <;> simp_all [AgreeOn, maskedEq_iff]
    · exact decide_eq_true_iff

variable {rules : List HbaRule} {user database : Str} {a : BitVec 32}

/-- No address and no network is of both families. -/
theorem Names.not_mapped {spec : Str} (hn : Names parse spec (.v4 a)) :
    ¬Names parse spec (.mapped a) := by
  unfold Names at hn ⊢
  split at hn
  · rintro ⟨_, -, n, hnet, hmapped⟩
    obtain ⟨_, -, n', hnet', hagree⟩ := hn
    cases hnet.symm.trans hnet'
    cases n with
    | v4 => exact hmapped
    | v6 => exact hagree
  · rw [hn]
    intro hmapped
    cases hmapped

/-- The rule is for the client, and its address is `all` or names `ip`. -/
def HbaRule.Meets (parse : Str → Option IpAddr) (user database : Str) (ip : IpAddr) (r : HbaRule) :
    Prop :=
  r.applies user database ∧ (r.address = "all" ∨ Names parse r.address ip)

/-- The first of the rules that meets `ip` has the action, which is to allow where none does. -/
def FirstActs (parse : Str → Option IpAddr) (rules : List HbaRule) (user database : Str)
    (ip : IpAddr) (action : HbaAction) : Prop :=
  (∃ front r rest, rules = front ++ r :: rest ∧ (∀ q ∈ front, ¬q.Meets parse user database ip) ∧
    r.Meets parse user database ip ∧ r.action = action) ∨
  (∀ q ∈ rules, ¬q.Meets parse user database ip) ∧ action = .allow

/-- The first rule that meets one form of the address and not the other acts as the first
rule behind it that meets the other form. -/
def Neutral (parse : Str → Option IpAddr) (rules : List HbaRule) (user database : Str)
    (a : BitVec 32) : Prop :=
  ∀ front r rest, rules = front ++ r :: rest → r.address ≠ "all".toList →
    (∀ q ∈ front, ¬q.Meets parse user database (.v4 a) ∧ ¬q.Meets parse user database (.mapped a)) →
    (r.Meets parse user database (.v4 a) →
    FirstActs parse rest user database (.mapped a) r.action) ∧
    (r.Meets parse user database (.mapped a) → FirstActs parse rest user database (.v4 a) r.action)

variable {r : HbaRule} {ip : IpAddr} {action : HbaAction}

theorem firstActs_cons : FirstActs parse (r :: rules) user database ip action ↔
    (r.Meets parse user database ip ∧ r.action = action) ∨
      (¬r.Meets parse user database ip ∧ FirstActs parse rules user database ip action) := by
  constructor
  · rintro (⟨front, q, rest, hsplit, hfront, hmeets, hact⟩ | ⟨hnone, hact⟩)
    · cases front with
      | nil =>
        cases hsplit
        exact .inl ⟨hmeets, hact⟩
      | cons =>
        cases hsplit
        obtain ⟨hr, hfront⟩ := List.forall_mem_cons.mp hfront
        exact .inr ⟨hr, .inl ⟨_, q, rest, rfl, hfront, hmeets, hact⟩⟩
    · obtain ⟨hr, hrules⟩ := List.forall_mem_cons.mp hnone
      exact .inr ⟨hr, .inr ⟨hrules, hact⟩⟩
  · rintro (⟨hmeets, hact⟩ | ⟨hr, ⟨front, q, rest, rfl, hfront, hmeets, hact⟩ | ⟨hrules, hact⟩⟩)
    · exact .inl ⟨[], r, rules, rfl, by simp, hmeets, hact⟩
    · exact .inl ⟨r :: front, q, rest, rfl, List.forall_mem_cons.mpr ⟨hr, hfront⟩, hmeets, hact⟩
    · exact .inr ⟨List.forall_mem_cons.mpr ⟨hr, hrules⟩, hact⟩

theorem neutral_cons : Neutral parse (r :: rules) user database a ↔
    (r.address ≠ "all".toList →
      (r.Meets parse user database (.v4 a) →
        FirstActs parse rules user database (.mapped a) r.action) ∧
      (r.Meets parse user database (.mapped a) →
        FirstActs parse rules user database (.v4 a) r.action)) ∧
    (¬r.Meets parse user database (.v4 a) → ¬r.Meets parse user database (.mapped a) →
      Neutral parse rules user database a) := by
  constructor
  · intro hn
    refine ⟨fun hall => hn [] r rules rfl hall (by simp),
      fun hv4 hmapped front q rest hsplit hall hfront => ?_⟩
    exact hn (r :: front) q rest (congrArg (r :: ·) hsplit) hall
      (List.forall_mem_cons.mpr ⟨⟨hv4, hmapped⟩, hfront⟩)
  · rintro ⟨hfirst, hlater⟩ front q rest hsplit hall hfront
    cases front with
    | nil =>
      cases hsplit
      exact hfirst hall
    | cons =>
      cases hsplit
      obtain ⟨⟨hv4, hmapped⟩, hfront⟩ := List.forall_mem_cons.mp hfront
      exact hlater hv4 hmapped _ q rest rfl hall hfront

theorem hbaAdmits_cons [Decidable (r.Meets parse user database ip)] :
    hbaAdmits parse (r :: rules) ip user database =
      if r.Meets parse user database ip then decide
        (r.action = .allow) else hbaAdmits parse rules ip user database := by
  rw [hbaAdmits]
  simp only [HbaRule.Meets, ← hbaAddrMatches_iff, Bool.and_eq_true]

theorem hbaAdmits_eq_iff : hbaAdmits parse rules ip user database = decide (action = .allow) ↔
    FirstActs parse rules user database ip action := by
  classical
  induction rules with
  | nil =>
    cases action <;> simp [hbaAdmits, FirstActs]
  | cons r rules ih =>
    rw [hbaAdmits_cons, firstActs_cons, ← ih]
    by_cases hmeets : r.Meets parse user database ip
    · cases hact : r.action <;> cases action <;> simp [hmeets]
    · simp [hmeets]

/-- By induction on the rules: the first rule that meets one of the forms decides for it. -/
theorem hbaAdmits_mapped_iff :
    hbaAdmits parse rules (.v4 a) user database = hbaAdmits parse rules (.mapped a) user database ↔
      Neutral parse rules user database a := by
  classical
  induction rules with
  | nil =>
    refine iff_of_true rfl fun front r rest hsplit => ?_
    cases front <;> cases hsplit
  | cons r rules ih =>
    rw [hbaAdmits_cons, hbaAdmits_cons, neutral_cons]
    by_cases hv4 : r.Meets parse user database (.v4 a) <;>
      by_cases hmapped : r.Meets parse user database (.mapped a)
    · have hall : r.address = "all".toList :=
        hv4.2.elim id fun hn => hmapped.2.resolve_right hn.not_mapped
      simp only [hv4, hmapped, hall, if_true, not_true_eq_false, false_imp_iff, ne_eq, and_self]
    · have hall : r.address ≠ "all".toList := fun hall => hmapped ⟨hv4.1, .inl hall⟩
      simp only [hv4, hmapped, hall, if_true, if_false, ne_eq, not_false_eq_true, not_true_eq_false,
        forall_const, false_imp_iff, and_true, ← hbaAdmits_eq_iff]
      exact eq_comm
    · have hall : r.address ≠ "all".toList := fun hall => hv4 ⟨hmapped.1, .inl hall⟩
      simp only [hv4, hmapped, hall, if_true, if_false, ne_eq, not_false_eq_true, not_true_eq_false,
        forall_const, false_imp_iff, true_and, and_true, ← hbaAdmits_eq_iff]
    · simp only [hv4, hmapped, ih, if_false, not_false_eq_true, forall_const,
        false_imp_iff, and_self, imp_true_iff, true_and]

theorem hbaAddrMatches_network {net width : Str} {bits : Nat} {n ip : IpAddr} (hf : '/' ∉ net)
    (hbits : Decimal.parseBelow (2 ^ 32) width = some bits) (hnet : parse net = some n) :
    hbaAddrMatches parse (net ++ '/' :: width) ip ↔ AgreeOn bits n ip := by
  have ho : net ++ '/' :: width ≠ "all" := fun h =>
    absurd (h ▸ List.mem_append_right net List.mem_cons_self : '/' ∈ "all".toList) (by decide)
  rw [hbaAddrMatches_iff, or_iff_right ho, Names, splitOnce_append hf]
  simp only [hbits, hnet, Option.mem_some_iff, exists_eq_left']

/-- Admission does not depend on the form of the address exactly where the first rule that
tells the forms apart changes nothing, and a network is matched by its first bits. -/
theorem hba_independent (parse : Str → Option IpAddr) :
    (∀ rules user database a,
      hbaAdmits parse rules (.v4 a) user database = hbaAdmits parse rules
        (.mapped a) user database ↔
        Neutral parse rules user database a) ∧
    ∀ net width bits n ip, '/' ∉ net → Decimal.parseBelow (2 ^ 32) width = some bits →
      parse net = some n →
      (hbaAddrMatches parse (net ++ '/' :: width) ip ↔ AgreeOn bits n ip) :=
  ⟨fun _ _ _ _ => hbaAdmits_mapped_iff, fun _ _ _ _ _ => hbaAddrMatches_network⟩

end

def parseLocal (s : Str) : Option IpAddr := if s = "10.0.0.1" then some (.v4 0x0a000001) else none

theorem hba_independent_local :
    Neutral parseLocal [⟨.allow, "all", "all", "10.0.0.1"⟩,
      ⟨.allow, "all", "all", "all"⟩,
      ⟨.reject, "all", "all", "10.0.0.1"⟩] [] [] 0x0a000001 ∧
    (hbaAddrMatches parseLocal ("10.0.0.1" ++ '/' :: "8") (.v4 0x0a020304) ↔
      AgreeOn 8 (.v4 0x0a000001) (.v4 0x0a020304)) :=
  ⟨((hba_independent parseLocal).1 _ _ _ _).mp (by decide),
    (hba_independent parseLocal).2 _ _ _ _ _ (by decide) (by decide) (by decide)⟩

/-- The client that a rule rejects by its address comes in by a dual-stack listener. -/
theorem hba_mapped_admitted :
    hbaAdmits parseLocal [⟨.reject, "all", "all", "10.0.0.1"⟩] (.v4 0x0a000001) [] [] = false ∧
      hbaAdmits parseLocal [⟨.reject, "all", "all", "10.0.0.1"⟩] (.mapped 0x0a000001) []
        [] = true := by
  decide

end HeliosProxy.Auth
