import HeliosProxy.Cache.L2Warm
import HeliosProxy.Lib.Buckets
import HeliosProxy.Lib.Runs

/-!
# The shards of the semantic cache

`L3SemanticCache` files its results in shards of a lock each, with one bound for all of
them.  A store evicts from its own shard first, and from the others one lock at a time; in
between other stores may file in shards it has been to.  The bound holds again when no
store is left: the last one that filed finds nothing new in any shard it comes to.

A section under a shard's lock is one step here, as is each check of the bounds outside of
one.  The embeddings and their memo are left out.
-/

namespace HeliosProxy.L3Semantic

open Function

open L2Warm (CachedResult)
open Lru Buckets Parties Runs

structure CacheContext where
  database : String
  user : Option String
  branch : Option String
deriving DecidableEq

/-- `Canonical`, as far as the shards read it. -/
structure Canonical where
  guard : String
  shape : String
  select : String
  columns : List (Option String)
deriving DecidableEq

structure Slot where
  seq : Nat
  ctx : CacheContext
  shape : String
  select : String
  columns : List (Option String)
  result : CachedResult
  charge : Nat
deriving DecidableEq

def Slot.matches (s : Slot) (c : Canonical) (ctx : CacheContext) : Bool :=
  s.shape = c.shape ∧ s.ctx = ctx

/-- `L3Config`, with the size of a slot's structure. -/
structure L3Config where
  enabled : Bool
  ttl : Nat
  maxEntries : Nat
  maxVariants : Nat
  maxBytes : Nat
  slotSize : Nat

/-- `shard_count`, less one. -/
def L3Config.shardMask (cfg : L3Config) : Nat :=
  2 ^ Nat.log2 (min 64 (max 1 (cfg.maxEntries / 32))) - 1

/-! ## One shard -/

structure Shard where
  buckets : List (UInt64 × List Slot)
  fifo : List (UInt64 × Nat)
  nextSeq : Nat
  len : Nat
  bytes : Nat
deriving DecidableEq

namespace Shard

def empty : Shard := ⟨[], [], 0, 0, 0⟩

def removeSlot (s : Shard) (key : UInt64) (slot : Slot) : Shard :=
  { s with
    buckets := setBucket key ((bucketOf key s.buckets).eraseP (·.seq = slot.seq)) s.buckets
    len := s.len - 1
    bytes := s.bytes - slot.charge }

/-- The loop of `evict_oldest` over what is left of the queue. -/
def evictOldestFrom (s : Shard) (keep : Option Nat) : List (UInt64 × Nat) → Option Slot × Shard
  | [] => (none, { s with fifo := [] })
  | (key, seq) :: fifo =>
    if keep = some seq then (none, { s with fifo := (key, seq) :: fifo })
    else
      match (bucketOf key s.buckets).find? (·.seq = seq) with
      | none => s.evictOldestFrom keep fifo
      | some slot => (some slot, { s.removeSlot key slot with fifo })

def evictOldest (s : Shard) (keep : Option Nat) : Option Slot × Shard :=
  s.evictOldestFrom keep s.fifo

def compactFifo (s : Shard) : Shard :=
  if 2 * s.len + 1 < s.fifo.length then
    { s with fifo := s.fifo.filter fun e => (bucketOf e.1 s.buckets).any (·.seq = e.2) }
  else s

end Shard

/-- The loop of `take_where`: a slot that is kept changes places with the first of the
doomed ones before it. -/
def takeWhereFrom (doomed : Slot → Bool) (kept dead : List Slot) : List Slot → List Slot × List Slot
  | [] => (kept, dead)
  | slot :: slots =>
    if doomed slot then takeWhereFrom doomed kept (dead ++ [slot]) slots
    else takeWhereFrom doomed (kept ++ [slot]) (dead.rotate 1) slots

def takeWhere (doomed : Slot → Bool) (bucket : List Slot) : List Slot × List Slot :=
  takeWhereFrom doomed [] [] bucket

namespace Shard

/-- The section of `purge_bucket`, and what it took out. -/
def purge (s : Shard) (key : UInt64) (doomed : Slot → Bool) : Shard × List Slot :=
  match lookup key s.buckets with
  | none => (s, [])
  | some bucket =>
    let (kept, dead) := takeWhere doomed bucket
    (compactFifo
      { s with
        buckets := setBucket key kept s.buckets
        len := s.len - dead.length
        bytes := s.bytes - (dead.map Slot.charge).sum }, dead)

/-- The part of `store` in front of the eviction, and what it took out. -/
def file (s : Shard) (variants : Nat) (key : UInt64) (slot : Slot) (doomed : Slot → Bool) :
    Shard × List Slot :=
  let (kept, dead) := takeWhere doomed (bucketOf key s.buckets)
  let full := max 1 variants ≤ kept.length
  let dead := if full then dead ++ kept.head?.toList else dead
  let kept := if full then kept.tail else kept
  ({ buckets := setBucket key (kept ++ [{ slot with seq := s.nextSeq }]) s.buckets
     fifo := s.fifo ++ [(key, s.nextSeq)]
     nextSeq := s.nextSeq + 1
     len := s.len + 1 - dead.length
     bytes := s.bytes + slot.charge - (dead.map Slot.charge).sum }, dead)

end Shard

/-! ## The tier -/

/-- `entry_count` and `entry_bytes`. -/
structure Books where
  entries : Nat
  bytes : Nat
deriving DecidableEq

def shift (counter add sub : Nat) : Nat :=
  if sub ≤ add then counter + (add - sub) else counter - (sub - add)

def Books.record (b : Books) (added dead : List Slot) : Books :=
  ⟨shift b.entries added.length dead.length,
    shift b.bytes (added.map Slot.charge).sum (dead.map Slot.charge).sum⟩

section Tier

variable (cfg : L3Config)

def overBounds (b : Books) : Bool :=
  cfg.maxEntries < b.entries || (0 < cfg.maxBytes && cfg.maxBytes < b.bytes)

/-- The loop of `evict_from`, with fuel for the queue. -/
def evictLoop (keep : Option Nat) : Nat → Shard → Books → Bool × Shard × Books
  | 0, s, b => (!overBounds cfg b, s, b)
  | fuel + 1, s, b =>
    if overBounds cfg b then
      match s.evictOldest keep with
      | (none, s) => (false, s, b)
      | (some slot, s) => evictLoop keep fuel s (b.record [] [slot])
    else (true, s, b)

def evictFrom (s : Shard) (b : Books) (keep : Option Nat) : Bool × Shard × Books :=
  let (settled, s, b) := evictLoop cfg keep (s.fifo.length + 1) s b
  (settled, s.compactFifo, b)

abbrev ShardId := Fin (cfg.shardMask + 1)

/-- What a call has still to do: a store that did not settle goes on with the shard `step`
after its own, and a lookup that met dead slots purges their bucket. -/
inductive Pending
  | check (home : ShardId cfg) (step : Nat)
  | evict (home : ShardId cfg) (step : Nat)
  | purge (key : UInt64) (now : Nat) (isCurrent : CachedResult → Bool)

structure L3SemanticCache where
  shards : ShardId cfg → Shard
  books : Books
  pending : List (Pending cfg)

inductive Action
  | store (c : Canonical) (ctx : CacheContext) (result : CachedResult) (isCurrent : CachedResult →
      Bool) (now : Nat)
  | lookupWithin (c : Canonical) (ctx : CacheContext) (isCurrent : CachedResult → Bool) (now : Nat)
      (maxAge : Option Nat) (approximate : Bool)
  | advance (i : Nat) (contended : Bool)

/-- What `lookup_within` sees in its bucket. -/
structure Scanned where
  dead : Bool
  stale : Nat
  exact : Option CachedResult
  candidates : List (List (Option String) × CachedResult)

/-- The loop of `lookup_within`, from the newest slot on. -/
def scanSlots (c : Canonical) (ctx : CacheContext) (isCurrent : CachedResult → Bool) (now : Nat)
    (maxAge : Option Nat) (approximate : Bool) (seen : Scanned) : List Slot → Scanned
  | [] => seen
  | slot :: slots =>
    let next := fun seen => scanSlots c ctx isCurrent now maxAge approximate seen slots
    if !slot.matches c ctx then next seen
    else if slot.result.isExpired now then next { seen with dead := true }
    else if !isCurrent slot.result then next { seen with dead := true, stale := seen.stale + 1 }
    else if maxAge.any (· < now - slot.result.cachedAt) then next seen
    else if slot.select = c.select then { seen with exact := some slot.result }
    else if approximate then
      next { seen with candidates := seen.candidates ++ [(slot.columns, slot.result)] }
    else next seen

variable {cfg} (bucketKey : Canonical → CacheContext → UInt64)

namespace L3SemanticCache

def new (cfg : L3Config) : L3SemanticCache cfg := ⟨fun _ => .empty, ⟨0, 0⟩, []⟩

def shardIndex (cfg : L3Config) (key : UInt64) : ShardId cfg := Fin.ofNat _ key.toNat

def setShard (t : L3SemanticCache cfg) (i : ShardId cfg) (s : Shard) (b : Books) :
    L3SemanticCache cfg :=
  { t with shards := update t.shards i s, books := b }

def slotOf (cfg : L3Config) (c : Canonical) (ctx : CacheContext) (result : CachedResult) : Slot :=
  { seq := 0, ctx, shape := c.shape, select := c.select, columns := c.columns
    result := { result with ttl := min result.ttl cfg.ttl }
    charge := result.size + (result.tables.map String.utf8ByteSize).sum + c.shape.utf8ByteSize +
      c.select.utf8ByteSize + (c.columns.reduceOption.map String.utf8ByteSize).sum +
        ctx.database.utf8ByteSize +
      (ctx.user.map String.utf8ByteSize).getD 0 + (ctx.branch.map String.utf8ByteSize).getD 0 +
        cfg.slotSize }

def tooLarge (cfg : L3Config) (slot : Slot) : Bool := 0 < cfg.maxBytes && cfg.maxBytes < slot.charge

/-- `store` up to the end of its first section. -/
def store (t : L3SemanticCache cfg) (c : Canonical) (ctx : CacheContext) (result : CachedResult)
    (isCurrent : CachedResult → Bool) (now : Nat) : L3SemanticCache cfg :=
  let slot := slotOf cfg c ctx result
  if !cfg.enabled || tooLarge cfg slot then t
  else
    let key := bucketKey c ctx
    let home := shardIndex cfg key
    let doomed := fun s : Slot =>
      s.matches c ctx && (s.result.isExpired now || !isCurrent s.result || s.select = c.select)
    let seq := (t.shards home).nextSeq
    let (s, dead) := (t.shards home).file cfg.maxVariants key slot doomed
    let (settled, s, b) := evictFrom cfg s (t.books.record [slot] dead) (some seq)
    { t.setShard home s b with pending := if settled then t.pending
      else t.pending ++ [.check home 1] }

def purgeBucket (t : L3SemanticCache cfg) (key : UInt64) (now : Nat)
    (isCurrent : CachedResult → Bool) :
    L3SemanticCache cfg :=
  let i := shardIndex cfg key
  let (s, dead) :=
    (t.shards i).purge key fun slot => slot.result.isExpired now || !isCurrent slot.result
  t.setShard i s (t.books.record [] dead)

/-- The first section of `lookup_within`, which changes nothing. -/
def lookupWithin (t : L3SemanticCache cfg) (c : Canonical) (ctx : CacheContext)
    (isCurrent : CachedResult → Bool)
    (now : Nat) (maxAge : Option Nat) (approximate : Bool) : Scanned :=
  let key := bucketKey c ctx
  scanSlots c ctx isCurrent now maxAge approximate ⟨false, 0, none, []⟩
    (bucketOf key (t.shards (shardIndex cfg key)).buckets).reverse

def next (home : ShardId cfg) (step : Nat) : ShardId cfg := home + Fin.ofNat _ step

def step (t : L3SemanticCache cfg) : Action → Option (L3SemanticCache cfg)
  | .store c ctx result isCurrent now => some (t.store bucketKey c ctx result isCurrent now)
  | .lookupWithin c ctx isCurrent now maxAge approximate =>
    if cfg.enabled && (t.lookupWithin bucketKey c ctx isCurrent now maxAge approximate).dead then
      some { t with pending := t.pending ++ [.purge (bucketKey c ctx) now isCurrent] }
    else some t
  | .advance i contended =>
    match t.pending[i]? with
    | none => none
    | some (.check home step) =>
      if cfg.shardMask < step ||
        !overBounds cfg t.books then some { t with pending := t.pending.eraseIdx i }
      else some { t with pending := t.pending.set i (.evict home step) }
    | some (.evict home step) =>
      let (_, s, b) := evictFrom cfg (t.shards (next home step)) t.books none
      some { t.setShard
        (next home step) s b with pending := t.pending.set i (.check home (step + 1)) }
    | some (.purge key now isCurrent) =>
      let done := { t with pending := t.pending.eraseIdx i }
      some (if contended then done else done.purgeBucket key now isCurrent)

end L3SemanticCache

end Tier

/-! ## The invariant of a shard -/

def Fits (cfg : L3Config) (slot : Slot) : Prop := cfg.maxBytes = 0 ∨ slot.charge ≤ cfg.maxBytes

structure ShardInv (cfg : L3Config) (s : Shard) : Prop where
  keyed : Keyed s.buckets
  len : s.len = amount (fun _ => 1) s.buckets
  bytes : s.bytes = amount Slot.charge s.buckets
  sorted : s.fifo.Pairwise fun a b => a.2 < b.2
  fresh : ∀ e ∈ s.fifo, e.2 < s.nextSeq
  queued : ∀ key, ∀ slot ∈ bucketOf key s.buckets, (key, slot.seq) ∈ s.fifo
  distinct : ∀ key, ((bucketOf key s.buckets).map Slot.seq).Nodup
  fits : ∀ key, ∀ slot ∈ bucketOf key s.buckets, Fits cfg slot

section Shards

variable {cfg : L3Config} {s : Shard}

theorem shardInv_empty : ShardInv cfg .empty := by
  constructor <;> simp [Shard.empty, Keyed, amount, bucketOf, lookup]

variable {key : UInt64} {fifo : List (UInt64 × Nat)}

theorem ShardInv.update (hi : ShardInv cfg s) {b : List Slot}
    {nextSeq len bytes : Nat} (hlen : len + (bucketOf key s.buckets).length = s.len + b.length)
    (hbytes : bytes + ((bucketOf key s.buckets).map Slot.charge).sum =
      s.bytes + (b.map Slot.charge).sum)
    (hso : fifo.Pairwise fun a b => a.2 < b.2) (hf : ∀ e ∈ fifo, e.2 < nextSeq)
    (hh : ∀ slot ∈ b, (key, slot.seq) ∈ fifo)
    (he : ∀ key' ≠ key, ∀ slot ∈ bucketOf key' s.buckets, (key', slot.seq) ∈ fifo)
    (hd : (b.map Slot.seq).Nodup) (hfi : ∀ slot ∈ b, Fits cfg slot) :
    ShardInv cfg ⟨setBucket key b s.buckets, fifo, nextSeq, len, bytes⟩ where
  keyed := keyed_setBucket hi.keyed
  len := by
    have hmo := amount_setBucket (fun _ => 1) key b hi.keyed
    have hb := hi.len
    simp only [List.map_const', List.sum_replicate, smul_eq_mul] at hmo
    dsimp only
    omega
  bytes := by
    have hmo := amount_setBucket Slot.charge key b hi.keyed
    have hb := hi.bytes
    dsimp only
    omega
  sorted := hso
  fresh := hf
  queued key' slot hm := by
    by_cases hs : key' = key
    · subst hs
      rw [bucketOf_setBucket_self] at hm
      exact hh slot hm
    · rw [bucketOf_setBucket_of_ne hs] at hm
      exact he key' hs slot hm
  distinct key' := by
    by_cases hs : key' = key
    · subst hs
      rwa [bucketOf_setBucket_self]
    · rw [bucketOf_setBucket_of_ne hs]
      exact hi.distinct key'
  fits key' slot hm := by
    by_cases hs : key' = key
    · subst hs
      rw [bucketOf_setBucket_self] at hm
      exact hfi slot hm
    · rw [bucketOf_setBucket_of_ne hs] at hm
      exact hi.fits key' slot hm

theorem ShardInv.compactFifo (hi : ShardInv cfg s) : ShardInv cfg s.compactFifo := by
  unfold Shard.compactFifo
  split
  · refine { hi with sorted := hi.sorted.filter _, fresh := ?_, queued := ?_ }
    · intro e hm
      exact hi.fresh e (List.mem_filter.mp hm).1
    · intro key slot hm
      exact List.mem_filter.mpr
        ⟨hi.queued key slot hm, List.any_eq_true.mpr ⟨slot, hm, decide_eq_true rfl⟩⟩
  · exact hi

@[simp] theorem compactFifo_len (s : Shard) : s.compactFifo.len = s.len := by
  unfold Shard.compactFifo
  split <;> rfl

@[simp] theorem compactFifo_bytes (s : Shard) : s.compactFifo.bytes = s.bytes := by
  unfold Shard.compactFifo
  split <;> rfl

/-! ## Slots that are taken out -/

theorem takeWhereFrom_spec (doomed : Slot → Bool) (kept dead slots : List Slot) :
    (takeWhereFrom doomed kept dead slots).1 = kept ++ slots.filter (!doomed ·) ∧
      (takeWhereFrom doomed kept dead slots).2.Perm (dead ++ slots.filter doomed) := by
  induction slots generalizing kept dead with
  | nil => simp [takeWhereFrom]
  | cons slot slots ih =>
    unfold takeWhereFrom
    split
    case isTrue hd =>
      have hr := ih kept (dead ++ [slot])
      rw [List.append_assoc] at hr
      rw [List.filter_cons_of_neg (by simpa using hd), List.filter_cons_of_pos hd]
      exact hr
    case isFalse hd =>
      have hr := ih (kept ++ [slot]) (dead.rotate 1)
      rw [List.append_assoc] at hr
      rw [List.filter_cons_of_pos (by simpa using hd), List.filter_cons_of_neg hd]
      exact ⟨hr.1, hr.2.trans ((List.rotate_perm dead 1).append_right _)⟩

theorem takeWhere_sublist (doomed : Slot → Bool) (bucket : List Slot) :
    (takeWhere doomed bucket).1.Sublist bucket := by
  rw [takeWhere, (takeWhereFrom_spec doomed [] [] bucket).1]
  exact List.filter_sublist

theorem takeWhere_perm (doomed : Slot → Bool) (bucket : List Slot) :
    ((takeWhere doomed bucket).1 ++ (takeWhere doomed bucket).2).Perm bucket := by
  obtain ⟨hk, hd⟩ := takeWhereFrom_spec doomed [] [] bucket
  rw [takeWhere, hk]
  refine (List.Perm.append_left _ hd).trans ?_
  exact List.perm_append_comm.trans (List.filter_append_perm doomed bucket)

theorem takeWhere_sum (m : Slot → Nat) (doomed : Slot → Bool) (bucket : List Slot) :
    ((takeWhere doomed bucket).1.map m).sum + ((takeWhere doomed bucket).2.map m).sum =
      (bucket.map m).sum := by
  rw [← List.sum_append, ← List.map_append]
  exact ((takeWhere_perm doomed bucket).map m).sum_eq

theorem takeWhere_length (doomed : Slot → Bool) (bucket : List Slot) :
    (takeWhere doomed bucket).1.length + (takeWhere doomed bucket).2.length = bucket.length := by
  rw [← List.length_append]
  exact (takeWhere_perm doomed bucket).length_eq

theorem ShardInv.charges_le (hi : ShardInv cfg s) (key : UInt64) :
    (bucketOf key s.buckets).length ≤ s.len ∧
      ((bucketOf key s.buckets).map Slot.charge).sum ≤ s.bytes := by
  have hlen := amount_erase (m := fun _ => 1) (k := key) hi.keyed
  have hb := amount_erase (m := Slot.charge) (k := key) hi.keyed
  simp only [List.map_const', List.sum_replicate, smul_eq_mul] at hlen
  have hbe := hi.len
  have hbe' := hi.bytes
  omega

theorem ShardInv.shrink (hi : ShardInv cfg s) {kept dead : List Slot}
    (hsub : kept.Sublist (bucketOf key s.buckets))
    (hlen : kept.length + dead.length = (bucketOf key s.buckets).length)
    (hsum : (kept.map Slot.charge).sum + (dead.map Slot.charge).sum =
      ((bucketOf key s.buckets).map Slot.charge).sum) :
    ShardInv cfg ⟨setBucket key kept s.buckets, s.fifo, s.nextSeq, s.len - dead.length,
      s.bytes - (dead.map Slot.charge).sum⟩ := by
  obtain ⟨hl, hb⟩ := hi.charges_le key
  exact hi.update (by omega) (by omega) hi.sorted hi.fresh
    (fun slot hm => hi.queued key slot (hsub.subset hm)) (fun key' _ => hi.queued key')
    ((hi.distinct key).sublist (hsub.map _)) fun slot hm => hi.fits key slot (hsub.subset hm)

variable {seq : Nat} {slot : Slot}

theorem eraseP_of_find {l : List Slot} (hf : l.find? (·.seq = seq) = some slot) :
    slot.seq = seq ∧ ∃ before after, l = before ++ slot :: after ∧
      l.eraseP (·.seq = slot.seq) = before ++ after := by
  obtain ⟨hs, before, after, rfl, ho⟩ := List.find?_eq_some_iff_append.mp hf
  have hs : slot.seq = seq := by simpa using hs
  subst hs
  refine ⟨rfl, before, after, rfl, ?_⟩
  rw [List.eraseP_append_right _ fun x hm => by simpa using ho x hm,
    List.eraseP_cons_of_pos (by simp)]

theorem ShardInv.removeSlot (hi : ShardInv cfg s)
    (hf : (bucketOf key s.buckets).find? (·.seq = seq) = some slot) :
    ShardInv cfg (s.removeSlot key slot) ∧ (s.removeSlot key slot).len + 1 = s.len ∧
      (s.removeSlot key slot).bytes + slot.charge = s.bytes := by
  obtain ⟨-, before, after, hw, he⟩ := eraseP_of_find hf
  obtain ⟨hlen, hbytes⟩ := hi.charges_le key
  rw [hw] at hlen hbytes
  simp only [List.length_append, List.length_cons, List.map_append, List.map_cons, List.sum_append,
    List.sum_cons]
    at hlen hbytes
  unfold Shard.removeSlot
  rw [he]
  refine ⟨@ShardInv.shrink _ _ key hi (before ++ after) [slot] ?_ ?_ ?_, ?_, ?_⟩
  · rw [hw]
    exact List.Sublist.append_left (List.sublist_cons_self _ _) _
  · rw [hw]
    simp only [List.length_append, List.length_cons, List.length_nil]
    omega
  · rw [hw]
    simp only [List.map_append, List.map_cons, List.map_nil, List.sum_append, List.sum_cons,
      List.sum_nil]
    omega
  · dsimp only
    omega
  · dsimp only
    omega

theorem ShardInv.dropFront (hi : ShardInv cfg { s with fifo := (key, seq) :: fifo })
    (hg : ∀ slot ∈ bucketOf key s.buckets, slot.seq ≠ seq) : ShardInv cfg { s with fifo } where
  keyed := hi.keyed
  len := hi.len
  bytes := hi.bytes
  sorted := (List.pairwise_cons.mp hi.sorted).2
  fresh e hm := hi.fresh e (List.mem_cons_of_mem _ hm)
  queued key' slot hm := by
    obtain hf | hl := List.mem_cons.mp (hi.queued key' slot hm)
    · cases hf
      exact absurd rfl (hg slot hm)
    · exact hl
  distinct := hi.distinct
  fits := hi.fits

theorem ShardInv.popFront (hi : ShardInv cfg { s with fifo := (key, seq) :: fifo }) {slot : Slot}
    (hf : (bucketOf key s.buckets).find? (·.seq = seq) = some slot) :
    ShardInv cfg { s.removeSlot key slot with fifo } := by
  have hr := (ShardInv.removeSlot hi hf).1
  obtain ⟨hs, before, after, hw, he⟩ := eraseP_of_find hf
  have hd := hi.distinct key
  rw [hw, List.map_append, List.map_cons, List.nodup_middle, ← List.map_append] at hd
  refine ShardInv.dropFront hr fun x hm hh => ?_
  rw [Shard.removeSlot, bucketOf_setBucket_self, he] at hm
  exact (List.nodup_cons.mp hd).1 (List.mem_map.mpr ⟨x, hm, hh.trans hs.symm⟩)

/-! ## Eviction -/

structure Spent (cfg : L3Config) (keep : Option Nat) (s : Shard) : Prop where
  len : s.len ≤ 1
  bytes : cfg.maxBytes = 0 ∨ s.bytes ≤ cfg.maxBytes
  none : keep = none → s.len = 0 ∧ s.bytes = 0

theorem ShardInv.eq_zero (hi : ShardInv cfg s) (he : s.fifo = []) : s.len = 0 ∧ s.bytes = 0 := by
  have hn : ∀ key, bucketOf key s.buckets = [] := by
    intro key
    refine List.eq_nil_iff_forall_not_mem.mpr fun slot hm => ?_
    have hq := hi.queued key slot hm
    rw [he] at hq
    cases hq
  exact ⟨hi.len.trans (amount_eq_zero hi.keyed hn), hi.bytes.trans (amount_eq_zero hi.keyed hn)⟩

theorem ShardInv.spent_of_front
    (hi : ShardInv cfg { s with fifo := (key, seq) :: fifo })
    (hn : ∀ e ∈ (key, seq) :: fifo, e.2 ≤ seq) :
    Spent cfg (some seq) { s with fifo := (key, seq) :: fifo } := by
  have hla : fifo = [] := by
    refine List.eq_nil_iff_forall_not_mem.mpr fun e hm => ?_
    have ha := (List.pairwise_cons.mp hi.sorted).1 e hm
    have hbe := hn e (List.mem_cons_of_mem _ hm)
    omega
  cases hf : (bucketOf key s.buckets).find? (·.seq = seq) with
  | none =>
    obtain ⟨hl, hb⟩ :=
      (hi.dropFront fun slot hm => by simpa using List.find?_eq_none.mp hf slot hm).eq_zero hla
    dsimp only at hl hb
    exact ⟨by dsimp only; omega, .inr (by dsimp only; omega), by rintro ⟨⟩⟩
  | some slot =>
    obtain ⟨-, hlen, hbytes⟩ := ShardInv.removeSlot hi hf
    obtain ⟨hl, hb⟩ := (hi.popFront hf).eq_zero hla
    have hfi := hi.fits key slot (List.mem_of_find?_eq_some hf)
    dsimp only [Shard.removeSlot] at hlen hbytes hl hb
    exact ⟨by dsimp only; omega, hfi.imp_right fun hle => by dsimp only; omega, by rintro ⟨⟩⟩

def Newest (keep : Option Nat) (fifo : List (UInt64 × Nat)) : Prop :=
  ∀ k, keep = some k → ∀ e ∈ fifo, e.2 ≤ k

variable {keep : Option Nat}

theorem Newest.tail {e : UInt64 × Nat} (hn : Newest keep (e :: fifo)) : Newest keep fifo :=
  fun k hs e hm => hn k hs e (List.mem_cons_of_mem _ hm)

theorem newest_none (fifo : List (UInt64 × Nat)) : Newest none fifo := by rintro k ⟨⟩

/-- `evict_oldest` took a slot out, or left the shard with the one to keep. -/
theorem ShardInv.evictOldestFrom (hi : ShardInv cfg { s with fifo }) (hn : Newest keep fifo) :
    (∃ slot s', s.evictOldestFrom keep fifo = (some slot, s') ∧ ShardInv cfg s' ∧
      s'.len + 1 = s.len ∧
      s'.bytes + slot.charge = s.bytes ∧ Newest keep s'.fifo ∧ s'.fifo.length < fifo.length) ∨
    ∃ s', s.evictOldestFrom keep fifo = (none, s') ∧ ShardInv cfg s' ∧ s'.len = s.len ∧
      s'.bytes = s.bytes ∧
      Spent cfg keep s' := by
  induction fifo with
  | nil =>
    obtain ⟨hlen, hb⟩ := hi.eq_zero rfl
    refine .inr ⟨_, rfl, hi, rfl, rfl, ?_, .inr ?_, fun _ => ⟨hlen, hb⟩⟩
    · exact hlen.trans_le (Nat.zero_le _)
    · exact hb.trans_le (Nat.zero_le _)
  | cons e fifo ih =>
    obtain ⟨key, seq⟩ := e
    unfold Shard.evictOldestFrom
    split
    case isTrue hk =>
      subst hk
      exact .inr ⟨_, rfl, hi, rfl, rfl, hi.spent_of_front (hn seq rfl)⟩
    case isFalse =>
      cases hf : (bucketOf key s.buckets).find? (·.seq = seq) with
      | none =>
        have hd := hi.dropFront fun slot hm => by simpa using List.find?_eq_none.mp hf slot hm
        obtain ⟨slot, s', he, hi', hlen, hb, hn', hs⟩ | hsp := ih hd hn.tail
        · exact .inl ⟨slot, s', he, hi', hlen, hb, hn', Nat.lt_succ_of_lt hs⟩
        · exact .inr hsp
      | some slot =>
        obtain ⟨-, hlen, hb⟩ := ShardInv.removeSlot hi hf
        exact .inl ⟨slot, _, rfl, hi.popFront hf, hlen, hb, hn.tail, Nat.lt_succ_self _⟩

theorem shift_add {counter add sub : Nat} (he : sub ≤ counter + add) :
    shift counter add sub + sub = counter + add := by
  unfold shift
  split <;> omega

/-- A section that only takes slots out of its shard, and out of the books. -/
structure Sheds (cfg : L3Config) (s : Shard) (b : Books) (s' : Shard) (b' : Books) : Prop where
  inv : ShardInv cfg s'
  len : s'.len ≤ s.len
  bytes : s'.bytes ≤ s.bytes
  entries : b'.entries + s.len = b.entries + s'.len
  entryBytes : b'.bytes + s.bytes = b.bytes + s'.bytes

variable {b : Books}

theorem ShardInv.evictLoop (fuel : Nat) (hi : ShardInv cfg s)
    (hn : Newest keep s.fifo) (hl : s.len ≤ b.entries) (hb : s.bytes ≤ b.bytes)
    (he : s.fifo.length < fuel) :
    ∃ settled s' b', L3Semantic.evictLoop cfg keep fuel s b = (settled, s', b') ∧
      Sheds cfg s b s' b' ∧
      (settled → overBounds cfg b' = false) ∧ (settled = false → Spent cfg keep s') := by
  induction fuel generalizing s b with
  | zero => exact absurd he (Nat.not_lt_zero _)
  | succ fuel ih =>
    unfold L3Semantic.evictLoop
    split
    case isFalse hw =>
      exact ⟨true, s, b, rfl, ⟨hi, le_rfl, le_rfl, rfl, rfl⟩, fun _ => by simpa using hw,
        by rintro ⟨⟩⟩
    case isTrue =>
      obtain ⟨slot, s₁, hev, hi₁, hlen, hbytes, hn₁, hsh⟩ | ⟨s₁, hno, hi₁, hlen, hbytes, hsp⟩ :=
        ShardInv.evictOldestFrom hi hn
      · have hen : (b.record [] [slot]).entries + 1 = b.entries :=
          shift_add (show 1 ≤ b.entries + 0 by omega)
        have hent : (b.record [] [slot]).bytes + slot.charge = b.bytes :=
          shift_add (show slot.charge ≤ b.bytes + 0 by omega)
        obtain ⟨settled, s', b', hlo, hs, hw, hsp⟩ :=
          ih (b := b.record [] [slot]) hi₁ hn₁ (by omega) (by omega) (by omega)
        have hl := hs.len
        have hb := hs.bytes
        have hen' := hs.entries
        have hent' := hs.entryBytes
        rw [Shard.evictOldest, hev]
        exact ⟨settled, s', b', hlo, ⟨hs.inv, by omega, by omega, by omega, by omega⟩, hw, hsp⟩
      · rw [Shard.evictOldest, hno]
        exact ⟨false, s₁, b, rfl, ⟨hi₁, hlen.le, hbytes.le, by rw [hlen], by rw [hbytes]⟩,
          by rintro ⟨⟩, fun _ => hsp⟩

theorem ShardInv.evictFrom (hi : ShardInv cfg s) (hn : Newest keep s.fifo)
    (hlen : s.len ≤ b.entries) (hb : s.bytes ≤ b.bytes) :
    ∃ settled s' b', L3Semantic.evictFrom cfg s b keep = (settled, s', b') ∧ Sheds cfg s b s' b' ∧
      (settled → overBounds cfg b' = false) ∧ (settled = false → Spent cfg keep s') := by
  obtain ⟨settled, s', b', hl, hs, hw, hsp⟩ :=
    hi.evictLoop (s.fifo.length + 1) hn hlen hb (Nat.lt_succ_self _)
  refine ⟨settled, s'.compactFifo, b', ?_, ?_, hw, fun hu => ?_⟩
  · rw [L3Semantic.evictFrom, hl]
  · exact ⟨hs.inv.compactFifo, by simpa using hs.len, by simpa using hs.bytes,
      by simpa using hs.entries, by simpa using hs.entryBytes⟩
  · have hsp := hsp hu
    exact ⟨by simpa using hsp.len, by simpa using hsp.bytes, by simpa using hsp.none⟩

theorem ShardInv.purge (hi : ShardInv cfg s) (hl : s.len ≤ b.entries) (hb : s.bytes ≤ b.bytes)
    (key : UInt64) (doomed : Slot → Bool) :
    Sheds cfg s b (s.purge key doomed).1 (b.record [] (s.purge key doomed).2) := by
  unfold Shard.purge
  split
  case h_1 => exact ⟨hi, le_rfl, le_rfl, rfl, rfl⟩
  case h_2 bucket hf =>
    have hh : bucketOf key s.buckets = bucket := by rw [bucketOf, hf, Option.getD_some]
    have hsub := takeWhere_sublist doomed bucket
    have hlen := takeWhere_length doomed bucket
    have hsum := takeWhere_sum Slot.charge doomed bucket
    obtain ⟨hbe, hbe'⟩ := hi.charges_le key
    rw [← hh] at hsub hlen hsum
    rw [← hh]
    have he : (b.record [] (takeWhere doomed (bucketOf key s.buckets)).2).entries +
        (takeWhere doomed (bucketOf key s.buckets)).2.length = b.entries :=
          shift_add (by rw [List.length_nil]; omega)
    have hen : (b.record [] (takeWhere doomed (bucketOf key s.buckets)).2).bytes +
        ((takeWhere doomed (bucketOf key s.buckets)).2.map Slot.charge).sum = b.bytes :=
      shift_add (by rw [List.map_nil]; omega)
    refine ⟨(hi.shrink hsub hlen hsum).compactFifo, ?_, ?_, ?_, ?_⟩
    all_goals
      simp only [compactFifo_len, compactFifo_bytes]
      omega

theorem makeRoom (variants : Nat) (kept dead : List Slot) :
    (if max 1 variants ≤ kept.length then kept.tail else kept).Sublist kept ∧
      (if max 1 variants ≤ kept.length then kept.tail else kept).length +
        (if max 1 variants ≤ kept.length then dead ++ kept.head?.toList else dead).length =
        kept.length + dead.length ∧
      ((if max 1 variants ≤ kept.length then kept.tail else kept).map Slot.charge).sum +
        ((if max 1 variants ≤ kept.length then dead ++ kept.head?.toList
          else dead).map Slot.charge).sum =
        (kept.map Slot.charge).sum + (dead.map Slot.charge).sum := by
  split
  · cases kept with
    | nil => simp
    | cons slot kept =>
      refine ⟨List.sublist_cons_self _ _, ?_, ?_⟩
      · simp only [List.tail_cons, List.head?_cons, Option.toList_some, List.length_append,
          List.length_cons, List.length_nil]
        omega
      · simp only [List.tail_cons, List.head?_cons, Option.toList_some, List.map_append,
          List.map_cons, List.map_nil, List.sum_append, List.sum_cons, List.sum_nil]
        omega
  · exact ⟨List.Sublist.refl _, rfl, rfl⟩

theorem ShardInv.file (hi : ShardInv cfg s) (variants : Nat) (key : UInt64) (hf : Fits cfg slot)
    (doomed : Slot → Bool) :
    ShardInv cfg (s.file variants key slot doomed).1 ∧
      (s.file variants key slot doomed).1.len + (s.file variants key slot doomed).2.length =
        s.len + 1 ∧
      (s.file variants key slot doomed).1.bytes +
        ((s.file variants key slot doomed).2.map Slot.charge).sum =
        s.bytes + slot.charge ∧
      Newest (some s.nextSeq) (s.file variants key slot doomed).1.fifo := by
  have hsub := takeWhere_sublist doomed (bucketOf key s.buckets)
  have hlen := takeWhere_length doomed (bucketOf key s.buckets)
  have hsum := takeWhere_sum Slot.charge doomed (bucketOf key s.buckets)
  obtain ⟨hb, hb'⟩ := hi.charges_le key
  unfold Shard.file
  dsimp only
  obtain ⟨hr, hrl, hrs⟩ := makeRoom variants (takeWhere doomed (bucketOf key s.buckets)).1
    (takeWhere doomed (bucketOf key s.buckets)).2
  have hsub := hr.trans hsub
  refine ⟨hi.update ?_ ?_ ?_ ?_ ?_ ?_ ?_ ?_, by omega, by omega, ?_⟩
  · rw [List.length_append, List.length_singleton]
    omega
  · rw [List.map_append, List.map_singleton, List.sum_append, List.sum_singleton]
    dsimp only
    omega
  · refine List.pairwise_append.mpr ⟨hi.sorted, List.pairwise_singleton _ _, fun e hm e' hn => ?_⟩
    rw [List.mem_singleton.mp hn]
    exact hi.fresh e hm
  · intro e hm
    obtain ho | hn := List.mem_append.mp hm
    · exact Nat.lt_succ_of_lt (hi.fresh e ho)
    · rw [List.mem_singleton.mp hn]
      exact Nat.lt_succ_self _
  · intro x hm
    obtain ho | hn := List.mem_append.mp hm
    · exact List.mem_append_left _ (hi.queued key x (hsub.subset ho))
    · rw [List.mem_singleton.mp hn]
      exact List.mem_append_right _ (List.mem_singleton.mpr rfl)
  · intro key' _ x hm
    exact List.mem_append_left _ (hi.queued key' x hm)
  · rw [List.map_append]
    refine List.nodup_append.mpr
      ⟨(hi.distinct key).sublist (hsub.map _), List.nodup_singleton _, ?_⟩
    intro seq hm seq' hn hs
    obtain ⟨x, hh, rfl⟩ := List.mem_map.mp hm
    have hol := hi.fresh _ (hi.queued key x (hsub.subset hh))
    rw [hs, List.mem_singleton.mp hn] at hol
    exact lt_irrefl _ hol
  · intro x hm
    obtain ho | hn := List.mem_append.mp hm
    · exact hi.fits key x (hsub.subset ho)
    · rw [List.mem_singleton.mp hn]
      exact hf
  · rintro k ⟨⟩ e hm
    obtain ho | hn := List.mem_append.mp hm
    · exact le_of_lt (hi.fresh e ho)
    · rw [List.mem_singleton.mp hn]

end Shards

/-! ## The invariant of the tier -/

section Invariant

variable {cfg : L3Config}

structure Balanced (shards : ShardId cfg → Shard) (b : Books) : Prop where
  each : ∀ i, ShardInv cfg (shards i)
  entries : b.entries = total Shard.len shards
  bytes : b.bytes = total Shard.bytes shards

variable {shards : ShardId cfg → Shard} {b : Books}

theorem Balanced.le_books (hb : Balanced shards b) (i : ShardId cfg) :
    (shards i).len ≤ b.entries ∧ (shards i).bytes ≤ b.bytes := by
  rw [hb.entries, hb.bytes]
  exact ⟨held_le_total _ _ i, held_le_total _ _ i⟩

variable {b' : Books} {s' : Shard} {i : ShardId cfg}

theorem Balanced.update (hb : Balanced shards b) (hi : ShardInv cfg s')
    (he : b'.entries + (shards i).len = b.entries + s'.len)
    (hby : b'.bytes + (shards i).bytes = b.bytes + s'.bytes) :
    Balanced (update shards i s') b' where
  each j := by
    by_cases hs : j = i
    · subst hs
      rwa [update_self]
    · rw [update_of_ne hs]
      exact hb.each j
  entries := by
    have hm := total_update Shard.len shards i s'
    have hbe := hb.entries
    omega
  bytes := by
    have hm := total_update Shard.bytes shards i s'
    have hbe := hb.bytes
    omega

structure Bounded (cfg : L3Config) (b : Books) : Prop where
  entries : b.entries ≤ max 1 cfg.maxEntries
  bytes : cfg.maxBytes = 0 ∨ b.bytes ≤ cfg.maxBytes

theorem bounded_of_within (hw : overBounds cfg b = false) : Bounded cfg b := by
  simp only [overBounds, Bool.or_eq_false_iff, Bool.and_eq_false_iff, decide_eq_false_iff_not,
    not_lt] at hw
  exact ⟨hw.1.trans (le_max_right _ _), hw.2.imp_left Nat.le_zero.mp⟩

/-- A store that goes on will get the tier within its bounds: its own shard has one slot at
most, and the shards it has been to are empty. -/
structure Clears (shards : ShardId cfg → Shard) (home : ShardId cfg) (step : Nat) : Prop where
  len : (shards home).len ≤ 1
  bytes : cfg.maxBytes = 0 ∨ (shards home).bytes ≤ cfg.maxBytes
  visited : ∀ j, 0 < j → j < step →
    (shards (L3SemanticCache.next home j)).len = 0 ∧
    (shards (L3SemanticCache.next home j)).bytes = 0

def Pending.Settles (shards : ShardId cfg → Shard) : Pending cfg → Prop
  | .check home step => Clears shards home step
  | .evict home step => Clears shards home step
  | .purge _ _ _ => False

def Shrinks (before after : ShardId cfg → Shard) : Prop :=
  ∀ i, (after i).len ≤ (before i).len ∧ (after i).bytes ≤ (before i).bytes

variable {home : ShardId cfg}

theorem Clears.shrink {before after : ShardId cfg → Shard} (hs : Shrinks before after)
    {step : Nat} (hc : Clears before home step) : Clears after home step where
  len := (hs home).1.trans hc.len
  bytes := hc.bytes.imp_right (hs home).2.trans
  visited j hpos hlt := by
    obtain ⟨hlen, hb⟩ := hc.visited j hpos hlt
    obtain ⟨hlen', hb'⟩ := hs (L3SemanticCache.next home j)
    omega

theorem Pending.Settles.shrink {before after : ShardId cfg → Shard} (hsh : Shrinks before after) :
    ∀ {p : Pending cfg}, p.Settles before → p.Settles after
  | .check _ _, hs | .evict _ _, hs => Clears.shrink hsh hs

theorem Sheds.shrinks
    (hs : Sheds cfg (shards i) b s' b') : Shrinks shards (update shards i s') := by
  intro j
  by_cases hsa : j = i
  · subst hsa
    rw [update_self]
    exact ⟨hs.len, hs.bytes⟩
  · rw [update_of_ne hsa]
    exact ⟨le_rfl, le_rfl⟩

variable {s : Shard}

theorem Bounded.sheds (hb : Bounded cfg b) (hs : Sheds cfg s b s' b') :
    Bounded cfg b' := by
  have he := hs.entries
  have hby := hs.entryBytes
  have hlen := hs.len
  have hlen' := hs.bytes
  exact ⟨le_trans (by omega) hb.entries, hb.bytes.imp_right (le_trans (by omega))⟩

theorem exists_next (home i : ShardId cfg) :
    i = home ∨ ∃ j, 0 < j ∧ j ≤ cfg.shardMask ∧ L3SemanticCache.next home j = i := by
  by_cases hs : i = home
  · exact .inl hs
  · refine .inr ⟨(i - home).val, pos_of_ne_zero fun hzero => hs ?_,
      Nat.lt_succ_iff.mp (i - home).isLt, ?_⟩
    · exact sub_eq_zero.mp (Fin.ext hzero)
    · rw [L3SemanticCache.next, Fin.ofNat_val_eq_self, add_sub_cancel]

theorem Clears.bounded (hb : Balanced shards b)
    {step : Nat} (hc : Clears shards home step) (hl : cfg.shardMask < step) : Bounded cfg b := by
  have hot : ∀ i, i ≠ home → (shards i).len = 0 ∧ (shards i).bytes = 0 := by
    intro i ho
    obtain hs | ⟨j, hpos, hle, rfl⟩ := exists_next home i
    · exact absurd hs ho
    · exact hc.visited j hpos (by omega)
  have he : total Shard.len shards = (shards home).len :=
    Finset.sum_eq_single home (fun i _ ho => (hot i ho).1) fun hou => absurd (Finset.mem_univ _) hou
  have hby : total Shard.bytes shards = (shards home).bytes :=
    Finset.sum_eq_single home (fun i _ ho => (hot i ho).2) fun hou => absurd (Finset.mem_univ _) hou
  constructor
  · rw [hb.entries, he]
    exact hc.len.trans (le_max_left _ _)
  · rw [hb.bytes, hby]
    exact hc.bytes

structure TierInv (t : L3SemanticCache cfg) : Prop where
  balanced : Balanced t.shards t.books
  settles : Bounded cfg t.books ∨ ∃ p ∈ t.pending, p.Settles t.shards

theorem tierInv_new : TierInv (L3SemanticCache.new cfg) where
  balanced := ⟨fun _ => shardInv_empty, (total_eq_zero fun _ => rfl).symm,
    (total_eq_zero fun _ => rfl).symm⟩
  settles := .inl ⟨Nat.zero_le _, .inr (Nat.zero_le _)⟩

variable {t : L3SemanticCache cfg} {pending : List (Pending cfg)}

theorem TierInv.sheds (hi : TierInv t)
    (hs : Sheds cfg (t.shards i) t.books s' b')
    (hse : ∀ p ∈ t.pending, p.Settles t.shards →
      Bounded cfg b' ∨ ∃ p ∈ pending, p.Settles (update t.shards i s')) :
    TierInv { t.setShard i s' b' with pending } where
  balanced := hi.balanced.update hs.inv hs.entries hs.entryBytes
  settles := by
    obtain hb | ⟨p, hm, hset⟩ := hi.settles
    · exact .inl (hb.sheds hs)
    · exact hse p hm hset

theorem TierInv.store (hi : TierInv t) (bucketKey : Canonical → CacheContext → UInt64)
    (c : Canonical)
    (ctx : CacheContext) (result : CachedResult) (isCurrent : CachedResult → Bool) (now : Nat) :
    TierInv (t.store bucketKey c ctx result isCurrent now) := by
  unfold L3SemanticCache.store
  extract_lets slot key home doomed seq
  split
  case isTrue => exact hi
  case isFalse hst =>
    have hfi : Fits cfg slot := by
      simp only [L3SemanticCache.tooLarge, Bool.or_eq_true, Bool.and_eq_true,
        decide_eq_true_eq] at hst
      unfold Fits
      omega
    obtain ⟨hf, hlen, hb, hn⟩ := (hi.balanced.each home).file cfg.maxVariants key hfi doomed
    obtain ⟨hle, hle'⟩ := hi.balanced.le_books home
    generalize (t.shards home).file cfg.maxVariants key slot doomed = out at hf hlen hb hn ⊢
    obtain ⟨s₁, dead⟩ := out
    dsimp only at hf hlen hb hn ⊢
    have hen : (t.books.record [slot] dead).entries + dead.length = t.books.entries + 1 :=
      shift_add (show dead.length ≤ t.books.entries + 1 by omega)
    have hent : (t.books.record [slot] dead).bytes + (dead.map Slot.charge).sum =
      t.books.bytes + slot.charge :=
      shift_add (show (dead.map Slot.charge).sum ≤ t.books.bytes + slot.charge by omega)
    obtain ⟨settled, s', b', he, hsh, hw, hs⟩ :=
      ShardInv.evictFrom (b := t.books.record [slot] dead) hf hn (by omega) (by omega)
    have hen' := hsh.entries
    have hent' := hsh.entryBytes
    have hba : Balanced (update t.shards home s') b' :=
      hi.balanced.update hsh.inv (by omega) (by omega)
    rw [he]
    refine ⟨hba, ?_⟩
    cases settled with
    | true => exact .inl (bounded_of_within (hw rfl))
    | false =>
      have hs := hs rfl
      refine .inr ⟨.check home 1, List.mem_append_right _ (List.mem_singleton.mpr rfl), ?_, ?_, ?_⟩
      · simpa [L3SemanticCache.setShard] using hs.len
      · simpa [L3SemanticCache.setShard] using hs.bytes
      · intro j hpos hlt
        omega

theorem TierInv.purgeBucket (hi : TierInv t) (key : UInt64) (now : Nat)
    (isCurrent : CachedResult → Bool) :
    TierInv (t.purgeBucket key now isCurrent) := by
  obtain ⟨hle, hle'⟩ := hi.balanced.le_books (L3SemanticCache.shardIndex cfg key)
  have hs := (hi.balanced.each (L3SemanticCache.shardIndex cfg key)).purge hle hle' key
    fun slot => slot.result.isExpired now || !isCurrent slot.result
  exact hi.sheds hs fun p hm hse => .inr ⟨p, hm, hse.shrink hs.shrinks⟩

variable {i : Nat} {p : Pending cfg}

theorem TierInv.finish (hi : TierInv t) (hh : t.pending[i]? = some p)
    (hd : p.Settles t.shards → Bounded cfg t.books) :
    TierInv { t with pending := t.pending.eraseIdx i } := by
  refine ⟨hi.balanced, ?_⟩
  obtain hb | ⟨q, hm, hs⟩ := hi.settles
  · exact .inl hb
  · obtain ⟨j, ht⟩ := List.mem_iff_getElem?.mp hm
    by_cases hsa : j = i
    · subst hsa
      cases hh.symm.trans ht
      exact .inl (hd hs)
    · exact .inr ⟨q, List.mem_eraseIdx_iff_getElem?.mpr ⟨j, hsa, ht⟩, hs⟩

theorem mem_set_or {q : Pending cfg} (hh : pending[i]? = some p)
    (hm : q ∈ pending) (p' : Pending cfg) :
    q = p ∧ p' ∈ pending.set i p' ∨ q ∈ pending.set i p' := by
  obtain ⟨j, ht⟩ := List.mem_iff_getElem?.mp hm
  by_cases hs : j = i
  · subst hs
    cases hh.symm.trans ht
    have hlt := (List.getElem?_eq_some_iff.mp hh).1
    exact .inl ⟨rfl, List.mem_iff_getElem?.mpr ⟨j, by rw [List.getElem?_set_self hlt]⟩⟩
  · exact .inr (List.mem_iff_getElem?.mpr ⟨j, by rw [List.getElem?_set_ne (Ne.symm hs), ht]⟩)

theorem TierInv.evict (hi : TierInv t) {step : Nat}
    (hh : t.pending[i]? = some (.evict home step)) {settled : Bool}
    (he : evictFrom cfg (t.shards (L3SemanticCache.next home step)) t.books none =
      (settled, s', b')) :
    TierInv { t.setShard (L3SemanticCache.next home step) s' b' with
      pending := t.pending.set i (.check home (step + 1)) } := by
  obtain ⟨hle, hle'⟩ := hi.balanced.le_books (L3SemanticCache.next home step)
  obtain ⟨settled', s₁, b₁, hsa, hs, hw, hsp⟩ :=
    (hi.balanced.each (L3SemanticCache.next home step)).evictFrom (newest_none _) hle hle'
  cases he.symm.trans hsa
  refine hi.sheds hs fun q hm hse => ?_
  obtain ⟨rfl, hm'⟩ | hm' := mem_set_or hh hm (.check home (step + 1))
  · cases settled with
    | true => exact .inl (bounded_of_within (hw rfl))
    | false =>
      have hc : Clears _ home step := hse.shrink hs.shrinks
      refine .inr ⟨_, hm', hc.len, hc.bytes, fun j hpos hlt => ?_⟩
      obtain rfl | hlt := eq_or_lt_of_le (Nat.lt_succ_iff.mp hlt)
      · rw [update_self]
        exact (hsp rfl).none rfl
      · exact hc.visited j hpos hlt
  · exact .inr ⟨q, hm', hse.shrink hs.shrinks⟩

theorem TierInv.step (hi : TierInv t)
    (bucketKey : Canonical → CacheContext → UInt64) {t' : L3SemanticCache cfg} :
    ∀ action, t.step bucketKey action = some t' → TierInv t'
  | .store c ctx result isCurrent now, hm => by
    cases hm
    exact hi.store bucketKey c ctx result isCurrent now
  | .lookupWithin c ctx isCurrent now maxAge approximate, hm => by
    simp only [L3SemanticCache.step] at hm
    split at hm
    · cases hm
      exact ⟨hi.balanced, hi.settles.imp_right fun ⟨p, hme, hs⟩ =>
        ⟨p, List.mem_append_left _ hme, hs⟩⟩
    · cases hm
      exact hi
  | .advance i contended, hm => by
    simp only [L3SemanticCache.step] at hm
    split at hm
    case h_1 => cases hm
    case h_2 home step hh =>
      split at hm
      case isTrue he =>
        cases hm
        refine hi.finish hh fun hc => ?_
        obtain hl | hw := Bool.or_eq_true_iff.mp he
        · exact Clears.bounded hi.balanced hc (of_decide_eq_true hl)
        · exact bounded_of_within (by simpa using hw)
      case isFalse =>
        cases hm
        refine ⟨hi.balanced, hi.settles.imp_right fun ⟨q, hme, hs⟩ => ?_⟩
        obtain ⟨rfl, hme'⟩ | hme' := mem_set_or hh hme (.evict home step)
        · exact ⟨_, hme', hs⟩
        · exact ⟨q, hme', hs⟩
    case h_3 home step hh =>
      cases hm
      exact hi.evict hh rfl
    case h_4 key now isCurrent hh =>
      have hf := hi.finish hh False.elim
      cases hm
      split
      · exact hf
      · exact hf.purgeBucket key now isCurrent

/-! ## Whole runs -/

def Pending.IsStore : Pending cfg → Bool
  | .check _ _ | .evict _ _ => true
  | .purge _ _ _ => false

theorem Pending.Settles.isStore {shards : ShardId cfg → Shard} :
    ∀ {p : Pending cfg}, p.Settles shards → p.IsStore
  | .check _ _, _ | .evict _ _, _ => rfl

/-- The bytes of a shard are those of its slots, and each of its slots is in its queue once. -/
structure ShardExact (s : Shard) : Prop where
  bytes : s.bytes = (s.buckets.map fun b => (b.2.map Slot.charge).sum).sum
  queued : ∀ key, ∀ slot ∈ bucketOf key s.buckets, s.fifo.count (key, slot.seq) = 1

theorem ShardInv.exact (hi : ShardInv cfg s) : ShardExact s where
  bytes := hi.bytes
  queued key slot hm := by
    have hn : s.fifo.Nodup := hi.sorted.imp fun hlt hs => by
      rw [hs] at hlt
      exact lt_irrefl _ hlt
    exact List.count_eq_one_of_mem hn (hi.queued key slot hm)

/-- In every state the shards are exact and the counters are their sums; where no store is
in flight, the entries are within their bound, and the bytes within theirs if there is one. -/
theorem l3Shards_bounded (cfg : L3Config) (bucketKey : Canonical → CacheContext → UInt64)
    (actions : List Action)
    {t : L3SemanticCache cfg}
    (hran : run (L3SemanticCache.step bucketKey) (.new cfg) actions = some t) :
    (∀ i, ShardExact (t.shards i)) ∧
      t.books.entries = ∑ i, ((t.shards i).buckets.map fun b => b.2.length).sum ∧
      t.books.bytes = ∑ i, (t.shards i).bytes ∧
      ((∀ p ∈ t.pending, p.IsStore = false) →
        t.books.entries ≤ max 1 cfg.maxEntries ∧
          (0 < cfg.maxBytes → t.books.bytes ≤ cfg.maxBytes)) := by
  have hinv : TierInv t :=
    run_invariant
    (fun _ action _ hinv hmoved => TierInv.step hinv bucketKey action hmoved) tierInv_new hran
  refine ⟨fun i => (hinv.balanced.each i).exact, ?_, hinv.balanced.bytes, fun hquiet => ?_⟩
  · rw [hinv.balanced.entries]
    refine Finset.sum_congr rfl fun i _ => ?_
    rw [(hinv.balanced.each i).len, amount, weight]
    simp only [List.map_const', List.sum_replicate, smul_eq_mul, mul_one]
  · obtain hbounded | ⟨p, hmem, hsettles⟩ := hinv.settles
    · exact ⟨hbounded.entries, fun hset => hbounded.bytes.resolve_left hset.ne'⟩
    · exact absurd hsettles.isStore (by rw [hquiet p hmem]; decide)

end Invariant

/-- Twelve bytes are stored, in the shard of the length of `guard`. -/
def storeTwelve (guard select : String) : Action :=
  .store ⟨guard, "t", select, []⟩ ⟨"", none, none⟩
    ⟨⟨List.replicate 10 0, by decide⟩, 1, 0, 5, [], 0, 0⟩ (fun _ => true) 0

def keyByGuard (c : Canonical) (_ : CacheContext) : UInt64 := .ofNat c.guard.length

/-- Room for one of three stores in two shards: the second and the third are not settled in their
own shards and go on to the others', one after the other. -/
def crowded : List Action :=
  [storeTwelve "" "a", storeTwelve "x" "a", storeTwelve "" "b", .advance 0 false, .advance 0 false,
    .advance 0 false, .advance 0 false]

theorem l3Shards_bounded_crowded :
    ((run (L3SemanticCache.step keyByGuard) (.new ⟨true, 9, 64, 2, 20, 0⟩) (crowded.take 3)).map
        fun t => (t.books, t.pending.length)) = some (⟨2, 24⟩, 2) ∧
      ∃ t, run (L3SemanticCache.step keyByGuard) (.new ⟨true, 9, 64, 2, 20, 0⟩) crowded = some t ∧
        t.pending.length = 0 ∧ t.books = ⟨1, 12⟩ ∧ t.books.entries ≤ 64 ∧ t.books.bytes ≤ 20 := by
  refine ⟨by decide, _, rfl, by decide, by decide, ?_⟩
  have hbounded :=
    (l3Shards_bounded ⟨true, 9, 64, 2, 20, 0⟩ keyByGuard crowded rfl).2.2.2 (by decide)
  exact ⟨hbounded.1, hbounded.2 (by decide)⟩

/-- Without a bound on the bytes there is none to be within. -/
theorem not_l3Shards_bounded :
    ¬ ∀ (cfg : L3Config) (bucketKey : Canonical → CacheContext → UInt64) (actions : List Action)
      (t : L3SemanticCache cfg),
      run (L3SemanticCache.step bucketKey) (.new cfg) actions = some t →
        (∀ p ∈ t.pending, p.IsStore = false) →
      t.books.bytes ≤ cfg.maxBytes := by
  intro hbounded
  have hnone := hbounded ⟨true, 9, 1, 1, 0, 0⟩ (fun _ _ => 7) [storeTwelve "" "a"] _ rfl (by decide)
  exact absurd hnone (by decide)

end HeliosProxy.L3Semantic
