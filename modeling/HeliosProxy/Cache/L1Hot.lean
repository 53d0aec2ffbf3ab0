import HeliosProxy.Lib.Lru
import HeliosProxy.Lib.Runs

/-!
# The bytes of the hot cache

`L1HotCache` keeps a counter of the bytes its entries take, and trims them to a budget.
The counter is moved by each operation on its own, next to a map that also drops entries
by itself.
-/

namespace HeliosProxy.L1Hot

open Lru Runs

/-- `CachedResult`, as far as the hot cache reads it. -/
structure CachedResult where
  data : List UInt8
  cachedAt : Nat
  ttl : Nat
deriving DecidableEq

/-- `is_expired`; a clock that went backwards shows no age. -/
def CachedResult.isExpired (r : CachedResult) (now : Nat) : Bool := r.ttl < now - r.cachedAt

/-- `L1Entry`; the key is the query too. -/
structure L1Entry where
  result : CachedResult
  query : List UInt8
deriving DecidableEq

/-- `L1Config`, with the size of the entry's structure. -/
structure L1Config where
  enabled : Bool
  size : Nat
  maxBytes : Nat
  ttl : Nat
  entrySize : Nat
  entrySize_pos : 0 < entrySize

structure L1HotCache where
  entries : List (List UInt8 × L1Entry)
  retainedBytes : Nat
deriving DecidableEq

section Cache

variable (cfg : L1Config)

def L1Config.capacity : Nat := if cfg.size = 0 then 1 else cfg.size

def entryCharge (e : L1Entry) : Nat := e.result.data.length + e.query.length + cfg.entrySize

namespace L1HotCache

def new : L1HotCache := ⟨[], 0⟩

def get (c : L1HotCache) (query : List UInt8) (now : Nat) : Option CachedResult × L1HotCache :=
  if !cfg.enabled then (none, c)
  else
    match Lru.get query c.entries with
    | (none, _) => (none, c)
    | (some entry, entries) =>
      if entry.result.isExpired now then (none, { c with entries := (pop query entries).2 })
      else (some entry.result, { c with entries })

def trim : Nat → L1HotCache → L1HotCache
  | 0, c => c
  | fuel + 1, c =>
    if cfg.maxBytes < c.retainedBytes then
      match c.entries.getLast? with
      | none => c
      | some (_, victim) => trim fuel ⟨c.entries.dropLast, c.retainedBytes - entryCharge cfg victim⟩
    else c

def entryOf (query : List UInt8) (result : CachedResult) : L1Entry :=
  ⟨{ result with ttl := if cfg.ttl < result.ttl then cfg.ttl else result.ttl }, query⟩

def put (c : L1HotCache) (query : List UInt8) (result : CachedResult) : L1HotCache :=
  if !cfg.enabled then c
  else
    let entry := entryOf cfg query result
    let charge := entryCharge cfg entry
    let (old, entries) := Lru.put cfg.capacity query entry c.entries
    let retained := match old with
      | some old => c.retainedBytes - entryCharge cfg old
      | none => c.retainedBytes
    let c := ⟨entries, retained + charge⟩
    if 0 < cfg.maxBytes then trim cfg c.entries.length c else c

def remove (c : L1HotCache) (query : List UInt8) : L1HotCache :=
  match pop query c.entries with
  | (some old, entries) => ⟨entries, c.retainedBytes - entryCharge cfg old⟩
  | (none, entries) => { c with entries }

def clear : L1HotCache := ⟨[], 0⟩

/-- `evict_expired`: the expired keys first, then each popped. -/
def evictExpired (c : L1HotCache) (now : Nat) : L1HotCache :=
  ((c.entries.filter fun e => e.2.result.isExpired now).map Prod.fst).foldl
    (fun c key => c.remove cfg key) c

end L1HotCache

inductive L1Op
  | get (query : List UInt8) (now : Nat)
  | put (query : List UInt8) (result : CachedResult)
  | remove (query : List UInt8)
  | clear
  | evictExpired (now : Nat)

def L1HotCache.step (c : L1HotCache) : L1Op → Option L1HotCache
  | .get query now => some (c.get cfg query now).2
  | .put query result => some (c.put cfg query result)
  | .remove query => some (c.remove cfg query)
  | .clear => some .clear
  | .evictExpired now => some (c.evictExpired cfg now)

/-! ## The drift of the counter -/

def L1HotCache.Exact (c : L1HotCache) : Prop := c.retainedBytes = weight (entryCharge cfg) c.entries

def Keeps (c : L1HotCache) : L1Op → Prop
  | .get query now =>
    ¬ (cfg.enabled = true ∧ (lookup query c.entries).any (fun e => e.result.isExpired now) = true)
  | .put query _ =>
    ¬ (cfg.enabled = true ∧ lookup query c.entries = none ∧ cfg.capacity ≤ c.entries.length)
  | _ => True

def leak (c : L1HotCache) : L1Op → Nat
  | .get query now =>
    if cfg.enabled then ((lookup query c.entries).filter fun e => e.result.isExpired now).elim 0
      (entryCharge cfg)
    else 0
  | .put query _ =>
    if cfg.enabled = true ∧ lookup query c.entries = none ∧ cfg.capacity ≤ c.entries.length then
      c.entries.getLast?.elim 0 fun e => entryCharge cfg e.2
    else 0
  | _ => 0

/-- The counter is `d` more than what the entries take. -/
structure Drifts (c : L1HotCache) (d : Nat) : Prop where
  keyed : Keyed c.entries
  retained : c.retainedBytes = weight (entryCharge cfg) c.entries + d

end Cache

section Drift

variable {cfg : L1Config} {c : L1HotCache} {d : Nat}

section

variable (hdr : Drifts cfg c d)
include hdr

theorem Drifts.remove (query : List UInt8) : Drifts cfg (c.remove cfg query) d := by
  unfold L1HotCache.remove pop
  have hr := hdr.retained
  cases hf : lookup query c.entries with
  | none =>
    refine ⟨keyed_erase hdr.keyed, ?_⟩
    rw [erase_of_lookup hf]
    exact hr
  | some old =>
    have hw := weight_erase (w := entryCharge cfg) hdr.keyed hf
    refine ⟨keyed_erase hdr.keyed, ?_⟩
    dsimp only
    omega

theorem Drifts.evictExpired (now : Nat) : Drifts cfg (c.evictExpired cfg now) d := by
  unfold L1HotCache.evictExpired
  generalize (c.entries.filter fun e => e.2.result.isExpired now).map Prod.fst = keys
  induction keys generalizing c with
  | nil => exact hdr
  | cons key keys ih => exact ih (hdr.remove key)

theorem Drifts.trim (fuel : Nat) : Drifts cfg (c.trim cfg fuel) d := by
  induction fuel generalizing c with
  | zero => exact hdr
  | succ fuel ih =>
    unfold L1HotCache.trim
    split
    case isTrue hf =>
      split
      case h_1 => exact hdr
      case h_2 key victim hl =>
        have hw := weight_dropLast (w := entryCharge cfg) hl
        have hr := hdr.retained
        refine ih ⟨keyed_dropLast hdr.keyed, ?_⟩
        dsimp only at hw ⊢
        omega
    case isFalse => exact hdr

theorem Drifts.get (query : List UInt8) (now : Nat) :
    Drifts cfg (c.get cfg query now).2 (d + leak cfg c (.get query now)) := by
  unfold L1HotCache.get
  simp only [leak]
  cases cfg.enabled with
  | false => exact hdr
  | true =>
    rw [if_neg (by decide), if_pos rfl]
    cases hf : lookup query c.entries with
    | none =>
      rw [Lru.get, hf]
      exact hdr
    | some entry =>
      have hw := weight_erase (w := entryCharge cfg) hdr.keyed hf
      have hr := hdr.retained
      rw [Lru.get, hf]
      dsimp only
      split
      case isTrue he =>
        rw [Option.filter_some, if_pos he, pop, erase_promoted]
        refine ⟨keyed_erase hdr.keyed, ?_⟩
        dsimp only [Option.elim_some]
        omega
      case isFalse hfr =>
        rw [Option.filter_some, if_neg hfr]
        refine ⟨keyed_cons_erase hdr.keyed, ?_⟩
        rw [weight_cons]
        dsimp only [Option.elim_none]
        omega

end

theorem capacity_pos (cfg : L1Config) : 0 < cfg.capacity := by
  unfold L1Config.capacity
  split <;> omega

theorem Drifts.inserted (hdr : Drifts cfg c d) (he : cfg.enabled) (query : List UInt8)
    (result : CachedResult) :
    Drifts cfg
      ⟨(Lru.put cfg.capacity query (L1HotCache.entryOf cfg query result) c.entries).2,
        (match (Lru.put cfg.capacity query (L1HotCache.entryOf cfg query result) c.entries).1 with
          | some old => c.retainedBytes - entryCharge cfg old
          | none => c.retainedBytes) + entryCharge cfg (L1HotCache.entryOf cfg query result)⟩
      (d + leak cfg c (.put query result)) := by
  refine ⟨keyed_put hdr.keyed, ?_⟩
  have hr := hdr.retained
  simp only [leak, he, true_and]
  unfold Lru.put
  cases hfo : lookup query c.entries with
  | some old =>
    have hw := weight_erase (w := entryCharge cfg) hdr.keyed hfo
    have hp : ¬ (some old = none ∧ cfg.capacity ≤ c.entries.length) := by rintro ⟨⟨⟩, _⟩
    rw [if_neg hp, weight_cons]
    show c.retainedBytes - entryCharge cfg old + entryCharge cfg
      (L1HotCache.entryOf cfg query result) = _
    dsimp only
    omega
  | none =>
    simp only [true_and]
    split
    case isTrue hf =>
      have hpos := capacity_pos cfg
      cases hl : c.entries.getLast? with
      | none =>
        rw [List.getLast?_eq_none_iff.mp hl] at hf
        exact absurd hf (Nat.not_le_of_lt hpos)
      | some victim =>
        have hw := weight_dropLast (w := entryCharge cfg) hl
        dsimp only [Option.elim_some]
        rw [weight_cons]
        dsimp only
        omega
    case isFalse =>
      rw [weight_cons]
      dsimp only
      omega

theorem Drifts.put (hdr : Drifts cfg c d) (query : List UInt8) (result : CachedResult) :
    Drifts cfg (c.put cfg query result) (d + leak cfg c (.put query result)) := by
  unfold L1HotCache.put
  by_cases he : cfg.enabled
  · rw [if_neg (by simp [he])]
    have hi := hdr.inserted he query result
    split
    · exact hi.trim _
    · exact hi
  · rw [if_pos (by simpa using he)]
    have hn : leak cfg c (.put query result) = 0 := if_neg fun hf => he hf.1
    rw [hn]
    exact hdr

theorem Drifts.step (hdr : Drifts cfg c d) {c' : L1HotCache} :
    ∀ op, c.step cfg op = some c' → ∃ d', Drifts cfg c' d' ∧ (d = 0 → d' = leak cfg c op)
  | .get query now, hm => by
    cases hm
    exact ⟨_, hdr.get query now, by rintro rfl; exact zero_add _⟩
  | .put query result, hm => by
    cases hm
    exact ⟨_, hdr.put query result, by rintro rfl; exact zero_add _⟩
  | .remove query, hm => by
    cases hm
    exact ⟨d, hdr.remove query, id⟩
  | .clear, hm => by
    cases hm
    exact ⟨0, ⟨List.nodup_nil, rfl⟩, fun _ => rfl⟩
  | .evictExpired now, hm => by
    cases hm
    exact ⟨d, hdr.evictExpired now, id⟩

theorem drifts_new : Drifts cfg .new 0 := ⟨List.nodup_nil, rfl⟩

theorem Drifts.exact_iff (hdr : Drifts cfg c d) : c.Exact cfg ↔ d = 0 := by
  have hr := hdr.retained
  unfold L1HotCache.Exact
  omega

theorem entryCharge_pos (cfg : L1Config) (e : L1Entry) : 0 < entryCharge cfg e :=
  Nat.lt_of_lt_of_le cfg.entrySize_pos (Nat.le_add_left _ _)

theorem leak_eq_zero_iff (cfg : L1Config) (c : L1HotCache) :
    ∀ op, leak cfg c op = 0 ↔ Keeps cfg c op
  | .get query now => by
    simp only [leak, Keeps]
    cases cfg.enabled with
    | false => simp
    | true =>
      cases lookup query c.entries with
      | none => simp
      | some entry =>
        have hpos := entryCharge_pos cfg entry
        cases he : entry.result.isExpired now with
        | true => simpa [Option.filter_some, he] using hpos.ne'
        | false => simp [Option.filter_some, he]
  | .put query result => by
    simp only [leak, Keeps]
    split
    case isTrue hf =>
      refine iff_of_false ?_ (not_not_intro hf)
      cases hl : c.entries.getLast? with
      | none =>
        have hr := hf.2.2
        rw [List.getLast?_eq_none_iff.mp hl] at hr
        exact absurd hr (Nat.not_le_of_lt (capacity_pos cfg))
      | some victim => exact (entryCharge_pos cfg victim.2).ne'
    case isFalse hr => exact iff_of_true rfl hr
  | .remove _ | .clear | .evictExpired _ => iff_of_true rfl trivial

/-! ## The entry that was just put -/

theorem Drifts.trim_head (hdr : Drifts cfg c 0) {e : List UInt8 × L1Entry}
    {rest : List (List UInt8 × L1Entry)}
    (hf : c.entries = e :: rest) (hfi : entryCharge cfg e.2 ≤ cfg.maxBytes) (fuel : Nat) :
    ∃ rest', (c.trim cfg fuel).entries = e :: rest' := by
  induction fuel generalizing c rest with
  | zero => exact ⟨rest, hf⟩
  | succ fuel ih =>
    unfold L1HotCache.trim
    split
    case isFalse => exact ⟨rest, hf⟩
    case isTrue hfu =>
      split
      case h_1 => exact ⟨rest, hf⟩
      case h_2 key victim hl =>
        have hw := weight_dropLast (w := entryCharge cfg) hl
        have hr := hdr.retained
        have hn : Drifts cfg ⟨c.entries.dropLast, c.retainedBytes - entryCharge cfg victim⟩ 0 := by
          refine ⟨keyed_dropLast hdr.keyed, ?_⟩
          dsimp only at hw ⊢
          omega
        cases rest with
        | nil =>
          rw [hf, weight_cons, weight_nil] at hr
          omega
        | cons second rest => exact ih hn (by rw [hf, List.dropLast_cons_cons])

def Fits (cfg : L1Config) (query : List UInt8) (result : CachedResult) : Prop :=
  cfg.maxBytes = 0 ∨ entryCharge cfg (L1HotCache.entryOf cfg query result) ≤ cfg.maxBytes

theorem lookup_head {k : List UInt8} {v : L1Entry} {l rest : List (List UInt8 × L1Entry)}
    (hf : l = (k, v) :: rest) :
    lookup k l = some v := by
  subst hf
  simp [lookup]

theorem Drifts.put_kept (hdr : Drifts cfg c 0) (he : cfg.enabled) {query : List UInt8}
    {result : CachedResult} (hk : Keeps cfg c (.put query result)) (hfi : Fits cfg query result) :
    lookup query (c.put cfg query result).entries = some (L1HotCache.entryOf cfg query result) := by
  have hi := hdr.inserted he query result
  rw [(leak_eq_zero_iff cfg c _).mpr hk] at hi
  have hf : ∃ rest, (Lru.put cfg.capacity query (L1HotCache.entryOf cfg query result) c.entries).2 =
      (query, L1HotCache.entryOf cfg query result) :: rest := by
    unfold Lru.put
    split
    · exact ⟨_, rfl⟩
    · exact ⟨_, rfl⟩
  obtain ⟨rest, hf⟩ := hf
  unfold L1HotCache.put
  rw [if_neg (by simp [he])]
  split
  case isTrue hbu =>
    obtain hu | hb := hfi
    · omega
    · obtain ⟨rest', hke⟩ := hi.trim_head hf hb
        (Lru.put cfg.capacity query (L1HotCache.entryOf cfg query result) c.entries).2.length
      exact lookup_head hke
  case isFalse => exact lookup_head hf

/-! ## Whole runs -/

theorem step_total (cfg : L1Config) (c : L1HotCache) (op : L1Op) :
    ∃ c', c.step cfg op = some c' := by
  cases op <;> exact ⟨_, rfl⟩

theorem run_total (cfg : L1Config) (c : L1HotCache) (ops : List L1Op) :
    ∃ e, run (L1HotCache.step cfg) c ops = some e := by
  induction ops generalizing c with
  | nil => exact ⟨c, rfl⟩
  | cons op ops ih =>
    obtain ⟨c', hm⟩ := step_total cfg c op
    obtain ⟨e, hr⟩ := ih c'
    exact ⟨e, run_cons_eq_some.mpr ⟨c', hm, hr⟩⟩

/-- The counter is exact, and a put that fits has left its entry. -/
structure Accounted (cfg : L1Config) (ops : List L1Op) (c : L1HotCache) : Prop where
  exact : c.Exact cfg
  kept : ∀ before query result, ops = before ++ [.put query result] → cfg.enabled = true →
    Fits cfg query result →
    lookup query c.entries = some (L1HotCache.entryOf cfg query result)

theorem run_drifts {ops : List L1Op} (hr : run (L1HotCache.step cfg) .new ops = some c) :
    ∃ d, Drifts cfg c d :=
  run_invariant (P := fun c => ∃ d, Drifts cfg c d)
    (fun _ op _ ⟨_, hdr⟩ hm => (hdr.step op hm).imp fun _ ha => ha.1) ⟨0, drifts_new⟩ hr

/-- A run has an exact counter throughout exactly if no lookup finds an expired entry and
no new key comes to a full map; every put that fits then leaves its entry. -/
theorem l1Accounting_exact (cfg : L1Config) (ops : List L1Op) :
    (∀ k c, run (L1HotCache.step cfg) .new (ops.take k) = some c → Accounted cfg (ops.take k) c) ↔
      Along (L1HotCache.step cfg) (Keeps cfg) .new ops := by
  obtain ⟨e, hran⟩ := run_total cfg .new ops
  have hcounter := forall_take_iff_along (I := fun c => ∃ d, Drifts cfg c d)
    (fun c op c' ⟨_, hdr⟩ hmoved => (hdr.step op hmoved).imp fun _ hafter => hafter.1)
    (fun c op c' ⟨_, hdr⟩ hexact hmoved => by
      obtain ⟨d', hafter, hleaked⟩ := hdr.step op hmoved
      rw [hafter.exact_iff, hleaked (hdr.exact_iff.mp hexact), leak_eq_zero_iff])
    ⟨0, drifts_new⟩ (drifts_new.exact_iff.mpr rfl) hran
  refine ⟨fun haccounted => hcounter.mp fun k c hrun => (haccounted k c hrun).exact,
    fun halong k c hrun => ?_⟩
  refine ⟨hcounter.mpr halong k c hrun, fun before query result hshape henabled hfits => ?_⟩
  obtain ⟨m, hreached⟩ := run_total cfg .new before
  have hwhole : ops = before ++ ([.put query result] ++ ops.drop k) := by
    rw [← List.append_assoc, ← hshape, List.take_append_drop]
  have hkeeps : Keeps cfg m (.put query result) := by
    rw [hwhole] at halong
    exact (along_append_right halong hreached).1
  have hexact : m.Exact cfg :=
    hcounter.mpr halong before.length m (by rw [hwhole, List.take_left]; exact hreached)
  obtain ⟨d, hdr⟩ := run_drifts hreached
  cases hdr.exact_iff.mp hexact
  rw [hshape, run_append hreached] at hrun
  cases hrun
  exact hdr.put_kept henabled hkeeps hfits

def oneEntry : L1Config := ⟨true, 1, 6, 5, 2, by decide⟩

/-- A lookup that finds its entry expired leaves its bytes in the counter; the next put
then trims its own entry away. -/
theorem not_l1Accounting_exact :
    ¬ ∀ k c, run (L1HotCache.step oneEntry) .new
        ([.put [1] ⟨[7], 0, 9⟩, .get [1] 6, .put [1] ⟨[7], 6, 9⟩].take k) = some c →
      Accounted oneEntry ([.put [1] ⟨[7], 0, 9⟩, .get [1] 6, .put [1] ⟨[7], 6, 9⟩].take k) c := by
  intro haccounted
  have hkept :=
    (haccounted 3 ⟨[], 4⟩ (by decide)).kept [.put [1] ⟨[7], 0, 9⟩, .get [1] 6] [1]
    ⟨[7], 6, 9⟩ rfl rfl
    (.inr (by decide))
  exact absurd hkept (by decide)

end Drift

end HeliosProxy.L1Hot
