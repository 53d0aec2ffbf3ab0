import HeliosProxy.Lib.Locks
import HeliosProxy.Lib.Runs

/-!
# The locks of the warm cache

The entries of `L2WarmCache` are a map of shards with a lock each, and the spill file has
a lock of its own.  A lookup that finds its entry in the spill file keeps the spill lock
while it puts the entry back into its shard; an eviction keeps the shard of the entry it
demotes while it asks for the spill lock.  Both may wait for each other, and no other
deadlock exists: there is none as long as neither begins while the other is at it in the
same shard.

What a call finds in the map and in the file decides which locks it takes; here that is
part of the call, as is the number of entries an eviction goes through.
-/

namespace HeliosProxy.Cache.L2

open Locks List Option

inductive Lock
  | shard (i : Nat)
  | spill
deriving DecidableEq

/-! ## The calls -/

/-- An iteration over the map, which keeps any of the shards it has come to. -/
inductive ScanOp
  | enter (shard : Nat)
  | leave (shard : Nat)

def ScanOp.op : ScanOp → Op Lock
  | .enter i => .acquire (.shard i) .shared
  | .leave i => .release (.shard i)

def ScanOp.after (held : List (Lock × Mode)) : ScanOp → List (Lock × Mode)
  | .enter i => (.shard i, .shared) :: held
  | .leave i => held.eraseP (·.1 = .shard i)

structure Scan where
  ops : List ScanOp
  closed : ops.foldl ScanOp.after [] = []

inductive Block
  /-- One operation on the map: shared for `get`, exclusive for `get_mut`, `insert` and
  `remove`. -/
  | touch (shard : Nat) (m : Mode)
  /-- The spill file has no entry. -/
  | lookup
  /-- The spill file has the entry: `promote_to_memory`. -/
  | promote (shard : Nat)
  /-- `demote_to_mmap`, of an entry that is still there. -/
  | demote (shard : Nat)
  | scan (s : Scan)

def Block.ops : Block → List (Op Lock)
  | .touch i m => [.acquire (.shard i) m, .release (.shard i)]
  | .lookup => [.acquire .spill .shared, .release .spill]
  | .promote i =>
    [.acquire .spill .shared, .acquire (.shard i) .exclusive, .release (.shard i), .release .spill]
  | .demote i =>
    [.acquire (.shard i) .shared, .acquire .spill .exclusive, .release .spill, .release (.shard i)]
  | .scan s => s.ops.map ScanOp.op

/-- What `get` finds. -/
inductive Found
  | memory
  | expired
  | spilled
  | nothing

/-- `L2WarmCache::get`. -/
def getBlocks (shard : Nat) : Found → List Block
  | .memory => [.touch shard .exclusive]
  | .expired => [.touch shard .exclusive, .touch shard .exclusive]
  | .spilled => [.touch shard .exclusive, .promote shard]
  | .nothing => [.touch shard .exclusive, .lookup]

/-- One turn of the loop of `evict_to_fit`: the least recently used entry and whether it
is still there, or none. -/
structure Turn where
  scan : Scan
  lru : Option (Nat × Bool)

def Turn.blocks (t : Turn) : List Block :=
  .scan t.scan ::
    match t.lru with
    | some (shard, true) => [.demote shard, .touch shard .exclusive]
    | some (shard, false) => [.touch shard .shared, .touch shard .exclusive]
    | none => []

/-- The eviction pass of a `put_evicting`, if it makes one. -/
inductive Eviction
  | none
  | handedOff (retired : Scan)
  | shed (retired : Scan) (shards : List Nat)
  | evictToFit (retired expired : Scan) (shards : List Nat) (turns : List Turn)

def Eviction.blocks : Eviction → List Block
  | .none => []
  | .handedOff retired => [.scan retired]
  | .shed retired shards => .scan retired :: shards.map (.touch · .exclusive)
  | .evictToFit retired expired shards turns =>
    .scan retired :: .scan expired :: shards.map (.touch · .exclusive) ++ turns.flatMap Turn.blocks

/-- `L2WarmCache::put_evicting`. -/
def putEvictingBlocks (shard : Nat) (e : Eviction) : List Block :=
  .touch shard .shared :: e.blocks ++ [.touch shard .exclusive]

/-- A call begins, or a running one takes its next step.  A handed-off pass calls `shed`.
`evicting` lets one pass run at a time; here any number may. -/
inductive CacheStep
  | get (shard : Nat) (found : Found)
  | putEvicting (shard : Nat) (e : Eviction)
  | shed (shards : List Nat)
  | advance (i : Nat)

def start (blocks : List Block) : Thread Lock := ⟨[], blocks.flatMap Block.ops⟩

def step (ts : List (Thread Lock)) : CacheStep → Option (List (Thread Lock))
  | .get shard found => some (ts ++ [start (getBlocks shard found)])
  | .putEvicting shard e => some (ts ++ [start (putEvictingBlocks shard e)])
  | .shed shards => some (ts ++ [start (shards.map (.touch · .exclusive))])
  | .advance i => advance ts i

/-! ## What a thread holds -/

inductive Running : Thread Lock → Prop
  | between (blocks : List Block) : Running ⟨[], blocks.flatMap Block.ops⟩
  | touched (i : Nat) (m : Mode) (blocks : List Block) :
      Running ⟨[(.shard i, m)], .release (.shard i) :: blocks.flatMap Block.ops⟩
  | lookedUp (blocks : List Block) :
      Running ⟨[(.spill, .shared)], .release .spill :: blocks.flatMap Block.ops⟩
  | promoting (i : Nat) (blocks : List Block) :
      Running ⟨[(.spill, .shared)], .acquire (.shard i) .exclusive :: .release (.shard i) ::
        .release .spill :: blocks.flatMap Block.ops⟩
  | promoted (i : Nat) (blocks : List Block) :
      Running ⟨[(.shard i, .exclusive), (.spill, .shared)], .release (.shard i) ::
        .release .spill :: blocks.flatMap Block.ops⟩
  | demoting (i : Nat) (blocks : List Block) :
      Running ⟨[(.shard i, .shared)], .acquire .spill .exclusive :: .release .spill ::
        .release (.shard i) :: blocks.flatMap Block.ops⟩
  | demoted (i : Nat) (blocks : List Block) :
      Running ⟨[(.spill, .exclusive), (.shard i, .shared)], .release .spill ::
        .release (.shard i) :: blocks.flatMap Block.ops⟩
  | scanning (held : List (Lock × Mode)) (op : ScanOp) (ops : List ScanOp) (blocks : List Block)
      (hs : ∀ p ∈ held, ∃ i, p = (.shard i, .shared))
      (hc : (op :: ops).foldl ScanOp.after held = []) :
      Running ⟨held, op.op :: (ops.map ScanOp.op ++ blocks.flatMap Block.ops)⟩

variable {held : List (Lock × Mode)}

theorem ScanOp.shared_after (op : ScanOp)
    (hs : ∀ p ∈ held, ∃ i, p = (.shard i, .shared)) :
    ∀ p ∈ op.after held, ∃ i, p = (.shard i, .shared) := by
  intro p hp
  cases op with
  | enter i =>
    rcases mem_cons.mp hp with rfl | hp
    · exact ⟨i, rfl⟩
    · exact hs p hp
  | leave i => exact hs p (mem_of_mem_eraseP hp)

theorem ScanOp.after_op (op : ScanOp) : op.op.after held = op.after held := by
  cases op <;> rfl

namespace Running

theorem scanned (ops : List ScanOp) (blocks : List Block)
    (hs : ∀ p ∈ held, ∃ i, p = (.shard i, .shared)) (hc : ops.foldl ScanOp.after held = []) :
    Running ⟨held, ops.map ScanOp.op ++ blocks.flatMap Block.ops⟩ := by
  cases ops with
  | nil =>
    obtain rfl : held = [] := hc
    exact .between blocks
  | cons op ops => exact .scanning held op ops blocks hs hc

variable {t : Thread Lock} {todo : List (Op Lock)}

theorem next {op : Op Lock} (h : Running t) (ht : t.todo = op :: todo) :
    Running ⟨op.after t.held, todo⟩ := by
  cases h with
  | between blocks =>
    induction blocks with
    | nil => cases ht
    | cons b blocks ih =>
      cases b with
      | touch i m =>
        cases ht
        exact .touched i m blocks
      | lookup =>
        cases ht
        exact .lookedUp blocks
      | promote i =>
        cases ht
        exact .promoting i blocks
      | demote i =>
        cases ht
        exact .demoting i blocks
      | scan s =>
        obtain ⟨ops, hc⟩ := s
        cases ops with
        | nil => exact ih ht
        | cons op ops =>
          cases ht
          rw [op.after_op]
          exact scanned ops blocks (op.shared_after nofun) hc
  | touched i m blocks =>
    cases ht
    simpa [Op.after] using between blocks
  | lookedUp blocks =>
    cases ht
    exact .between blocks
  | promoting i blocks =>
    cases ht
    exact .promoted i blocks
  | promoted i blocks =>
    cases ht
    simpa [Op.after] using lookedUp blocks
  | demoting i blocks =>
    cases ht
    exact .demoted i blocks
  | demoted i blocks =>
    cases ht
    exact .touched i .shared blocks
  | scanning held op ops blocks hs hc =>
    cases ht
    rw [op.after_op]
    exact scanned ops blocks (op.shared_after hs) hc

end Running

/-! ## Deadlocks -/

/-- A lookup that keeps the spill lock and puts its entry back into the shard next. -/
@[mk_iff]
structure Promoting (t : Thread Lock) (i : Nat) : Prop where
  held : t.held = [(.spill, .shared)]
  next : t.todo.head? = some (.acquire (.shard i) .exclusive)

/-- An eviction that keeps the shard of an entry and writes it to the spill file next. -/
@[mk_iff]
structure Demoting (t : Thread Lock) (i : Nat) : Prop where
  held : t.held = [(.shard i, .shared)]
  next : t.todo.head? = some (.acquire .spill .exclusive)

instance (t : Thread Lock) (i : Nat) : Decidable (Promoting t i) :=
  decidable_of_iff' _ (promoting_iff t i)

instance (t : Thread Lock) (i : Nat) : Decidable (Demoting t i) :=
  decidable_of_iff' _ (demoting_iff t i)

variable {t : Thread Lock} {l : Lock} {todo : List (Op Lock)}

theorem Running.waiting {m : Mode}
    (h : Running t) (ht : t.todo = .acquire l m :: todo) :
    t.held = [] ∨ (∃ i, Promoting t i ∧ l = .shard i) ∨ (∃ i, Demoting t i ∧ l = .spill) ∨
      ((∀ p ∈ t.held, ∃ i, p = (.shard i, .shared)) ∧ m = .shared) := by
  cases h with
  | between blocks => exact .inl rfl
  | promoting i blocks =>
    cases ht
    exact .inr (.inl ⟨i, ⟨rfl, rfl⟩, rfl⟩)
  | demoting i blocks =>
    cases ht
    exact .inr (.inr (.inl ⟨i, ⟨rfl, rfl⟩, rfl⟩))
  | scanning held op ops blocks hs hc =>
    cases op with
    | enter i =>
      cases ht
      exact .inr (.inr (.inr ⟨hs, rfl⟩))
    | leave i => cases ht
  | touched i m' blocks | lookedUp blocks | promoted i blocks | demoted i blocks => cases ht

section deadlocks

variable {ts : List (Thread Lock)} {D : Set Nat}

def AllWait (ts : List (Thread Lock)) (D : Set Nat) : Prop :=
  ∀ i ∈ D, ∀ t, ts[i]? = some t → ∃ l m todo, t.todo = .acquire l m :: todo ∧
    ∃ j ∈ D, ∃ u, ts[j]? = some u ∧ u.Blocks l m

variable (hts : ∀ t ∈ ts, Running t) (hD : AllWait ts D)
include hts hD

variable {j : Nat} {u : Thread Lock}

theorem promoting_or_demoting (hj : j ∈ D) (hu : ts[j]? = some u)
    (hheld : u.held ≠ []) : (∃ i, Promoting u i) ∨ ∃ i, Demoting u i := by
  obtain ⟨l, m, todo, htodo, k, hk, v, hv, p, hp, rfl, hconflict⟩ := hD j hj u hu
  rcases (hts u (mem_of_getElem? hu)).waiting htodo with hnil | ⟨i, h, -⟩ | ⟨i, h, -⟩ | ⟨-, rfl⟩
  · exact absurd hnil hheld
  · exact .inl ⟨i, h⟩
  · exact .inr ⟨i, h⟩
  · -- a reader of a shard only waits for a writer, and a writer does not wait
    obtain ⟨l', m', todo', htodo', -⟩ := hD k hk v hv
    have hshared : ∀ q ∈ v.held, q.2 = .shared := by
      intro q hq
      rcases (hts v (mem_of_getElem? hv)).waiting htodo' with hnil | ⟨i, h, -⟩ | ⟨i, h, -⟩ | ⟨h, -⟩
      · rw [hnil] at hq
        cases hq
      · rw [h.held, mem_singleton] at hq
        rw [hq]
      · rw [h.held, mem_singleton] at hq
        rw [hq]
      · obtain ⟨i, rfl⟩ := h q hq
        rfl
    rw [hshared p hp] at hconflict
    cases hconflict

theorem holder {l : Lock} {m : Mode} (hj : j ∈ D) (hu : ts[j]? = some u)
    (hnext : u.todo.head? = some (.acquire l m)) :
    ∃ k ∈ D, ∃ v, ts[k]? = some v ∧ (∃ p ∈ v.held, p.1 = l) ∧
      ((∃ i, Promoting v i) ∨ ∃ i, Demoting v i) := by
  obtain ⟨l', m', todo, htodo, k, hk, v, hv, p, hp, rfl, -⟩ := hD j hj u hu
  rw [htodo] at hnext
  cases hnext
  exact ⟨k, hk, v, hv, ⟨p, hp, rfl⟩, promoting_or_demoting hts hD hk hv (ne_nil_of_mem hp)⟩

theorem demoting_of_promoting {i : Nat} (hj : j ∈ D) (hu : ts[j]? = some u)
    (h : Promoting u i) : ∃ v ∈ ts, Demoting v i := by
  obtain ⟨k, -, v, hv, ⟨p, hp, hl⟩, ⟨i', hv'⟩ | ⟨i', hv'⟩⟩ := holder hts hD hj hu h.next
  all_goals
    rw [hv'.held, mem_singleton] at hp
    rw [hp] at hl
    cases hl
  exact ⟨v, mem_of_getElem? hv, hv'⟩

theorem promoting_of_demoting {i : Nat} (hj : j ∈ D) (hu : ts[j]? = some u)
    (h : Demoting u i) : ∃ k ∈ D, ∃ v, ts[k]? = some v ∧ ∃ i', Promoting v i' := by
  obtain ⟨k, hk, v, hv, ⟨p, hp, hl⟩, hv' | ⟨i', hv'⟩⟩ := holder hts hD hj hu h.next
  · exact ⟨k, hk, v, hv, hv'⟩
  · rw [hv'.held, mem_singleton] at hp
    rw [hp] at hl
    cases hl

end deadlocks

theorem deadlocked_iff {ts : List (Thread Lock)} (hts : ∀ t ∈ ts, Running t) :
    Deadlocked ts ↔ ∃ t ∈ ts, ∃ u ∈ ts, ∃ i, Promoting t i ∧ Demoting u i := by
  constructor
  · rintro ⟨D, ⟨d, hd⟩, hwait⟩
    have hD : AllWait ts D := by
      intro i hi t ht
      obtain ⟨j, hj, -, t', u, ht', hu, l, m, todo, htodo, hblocks⟩ := hwait i hi
      cases ht.symm.trans ht'
      exact ⟨l, m, todo, htodo, j, hj, u, hu, hblocks⟩
    have hpair : ∀ j ∈ D, ∀ u, ts[j]? = some u → ∀ i, Promoting u i →
        ∃ t ∈ ts, ∃ u ∈ ts, ∃ i, Promoting t i ∧ Demoting u i := by
      intro j hj u hu i h
      obtain ⟨v, hv, hdemoting⟩ := demoting_of_promoting hts hD hj hu h
      exact ⟨u, mem_of_getElem? hu, v, hv, i, h, hdemoting⟩
    obtain ⟨j, hj, -, -, u, -, hu, l, m, todo, -, p, hp, -⟩ := hwait d hd
    rcases promoting_or_demoting hts hD hj hu (ne_nil_of_mem hp) with ⟨i, h⟩ | ⟨i, h⟩
    · exact hpair j hj u hu i h
    · obtain ⟨k, hk, v, hv, i', hv'⟩ := promoting_of_demoting hts hD hj hu h
      exact hpair k hk v hv i' hv'
  · rintro ⟨t, ht, u, hu, i, hpromoting, hdemoting⟩
    obtain ⟨a, ha⟩ := getElem?_of_mem ht
    obtain ⟨b, hb⟩ := getElem?_of_mem hu
    obtain ⟨todo, htodo⟩ := head?_eq_some_iff.mp hpromoting.next
    obtain ⟨todo', htodo'⟩ := head?_eq_some_iff.mp hdemoting.next
    have hne : a ≠ b := by
      rintro rfl
      cases ha.symm.trans hb
      cases hpromoting.held.symm.trans hdemoting.held
    refine deadlocked_of_pair hne ha hb ⟨_, _, _, htodo, ?_⟩ ⟨_, _, _, htodo', ?_⟩
    · exact ⟨_, hdemoting.held ▸ mem_singleton_self _, rfl, rfl⟩
    · exact ⟨_, hpromoting.held ▸ mem_singleton_self _, rfl, rfl⟩

/-! ## Runs -/

def beginsPromotion : List (Op Lock) → Option Nat
  | .acquire .spill .shared :: .acquire (.shard i) .exclusive :: _ => some i
  | _ => none

def beginsDemotion : List (Op Lock) → Option Nat
  | .acquire (.shard i) .shared :: .acquire .spill .exclusive :: _ => some i
  | _ => none

/-- A lookup does not take the spill lock while an eviction demotes an entry of its shard,
and an eviction does not take the shard of an entry while a lookup promotes one into it. -/
def Apart (ts : List (Thread Lock)) : CacheStep → Prop
  | .advance j => ∀ t ∈ ts[j]?,
    (∀ i ∈ beginsPromotion t.todo, ∀ u ∈ ts, ¬ Demoting u i) ∧
      ∀ i ∈ beginsDemotion t.todo, ∀ u ∈ ts, ¬ Promoting u i
  | _ => True

instance (ts : List (Thread Lock)) (a : CacheStep) : Decidable (Apart ts a) := by
  cases a <;> unfold Apart <;> infer_instance

structure Safe (ts : List (Thread Lock)) : Prop where
  running : ∀ t ∈ ts, Running t
  apart : ∀ t ∈ ts, ∀ u ∈ ts, ∀ i, Promoting t i → ¬ Demoting u i

theorem Running.calm_release (h : Running t)
    (ht : t.todo = .release l :: todo) (i : Nat) :
    ¬ Promoting ⟨t.held.eraseP (·.1 = l), todo⟩ i ∧
      ¬ Demoting ⟨t.held.eraseP (·.1 = l), todo⟩ i := by
  have hempty : ∀ {held todo'}, held = [] →
      ¬ Promoting ⟨held, todo'⟩ i ∧ ¬ Demoting ⟨held, todo'⟩ i := by
    rintro held todo' rfl
    exact ⟨fun hp => (by cases hp.held), fun hd => (by cases hd.held)⟩
  cases h with
  | between blocks => exact hempty rfl
  | touched i' m blocks =>
    cases ht
    exact hempty (by simp)
  | lookedUp blocks =>
    cases ht
    exact hempty rfl
  | promoting i' blocks | demoting i' blocks => cases ht
  | promoted i' blocks | demoted i' blocks =>
    cases ht
    exact ⟨fun hp => (by cases hp.next), fun hd => (by cases hd.next)⟩
  | scanning held op ops blocks hs hc =>
    cases op with
    | enter i' => cases ht
    | leave i' =>
      cases ht
      cases ops with
      | nil => exact hempty hc
      | cons op ops =>
        cases op with
        | enter i'' | leave i'' =>
          exact ⟨fun hp => (by cases hp.next), fun hd => (by cases hd.next)⟩

namespace Safe

variable {ts ts' : List (Thread Lock)} (h : Safe ts)
include h

theorem begin (blocks : List Block) : Safe (ts ++ [start blocks]) := by
  have hnew : ∀ t ∈ ts ++ [start blocks], t ∈ ts ∨ t = start blocks := fun t ht =>
    (mem_append.mp ht).imp id mem_singleton.mp
  refine ⟨fun t ht => ?_, fun t ht u hu i hpromoting hdemoting => ?_⟩
  · rcases hnew t ht with ht | rfl
    · exact h.running t ht
    · exact .between blocks
  · rcases hnew t ht with ht | rfl
    · rcases hnew u hu with hu | rfl
      · exact h.apart t ht u hu i hpromoting hdemoting
      · cases hdemoting.held
    · cases hpromoting.held

theorem set {j : Nat} (hrunning : Running t)
    (hpromoting : ∀ i, Promoting t i → ∀ u ∈ ts, ¬ Demoting u i)
    (hdemoting : ∀ i, Demoting t i → ∀ u ∈ ts, ¬ Promoting u i) : Safe (ts.set j t) := by
  refine ⟨fun u hu => ?_, fun u hu v hv i hu' hv' => ?_⟩
  · rcases mem_or_eq_of_mem_set hu with hu | rfl
    · exact h.running u hu
    · exact hrunning
  · rcases mem_or_eq_of_mem_set hu with hh | rfl
    · rcases mem_or_eq_of_mem_set hv with hv | rfl
      · exact h.apart u hh v hv i hu' hv'
      · exact hdemoting i hv' u hh hu'
    · rcases mem_or_eq_of_mem_set hv with hv | rfl
      · exact hpromoting i hu' v hv hv'
      · cases hu'.held.symm.trans hv'.held

theorem advance {j : Nat} (hapart : Apart ts (.advance j)) (hstep : Locks.advance ts j = some ts') :
    Safe ts' := by
  rcases advance_eq_some hstep with ⟨held, l, m, todo, hj, -, rfl⟩ | ⟨held, l, todo, hj, rfl⟩
  · have hrunning := h.running _ (mem_of_getElem? hj)
    obtain ⟨hpromotion, hdemotion⟩ := hapart _ hj
    refine h.set (hrunning.next rfl) (fun i hp => ?_) (fun i hd => ?_)
    · obtain ⟨todo, rfl⟩ := head?_eq_some_iff.mp hp.next
      cases hp.held
      exact hpromotion i rfl
    · obtain ⟨todo, rfl⟩ := head?_eq_some_iff.mp hd.next
      cases hd.held
      exact hdemotion i rfl
  · have hrunning := h.running _ (mem_of_getElem? hj)
    have hcalm := hrunning.calm_release rfl
    exact h.set (hrunning.next rfl) (fun i hp => absurd hp (hcalm i).1)
      (fun i hd => absurd hd (hcalm i).2)

theorem step {a : CacheStep} (hapart : Apart ts a) (hstep : L2.step ts a = some ts') :
    Safe ts' := by
  cases a with
  | get shard found | putEvicting shard e | shed shards =>
    cases hstep
    exact h.begin _
  | advance i => exact h.advance hapart hstep

theorem not_deadlocked : ¬ Deadlocked ts := by
  rw [deadlocked_iff h.running]
  rintro ⟨t, ht, u, hu, i, hpromoting, hdemoting⟩
  exact h.apart t ht u hu i hpromoting hdemoting

end Safe

/-- No deadlock in a run in which lookups and evictions of one shard stay apart. -/
theorem never_deadlocks (steps : List CacheStep) {ts : List (Thread Lock)}
    (ha : Runs.Along step Apart [] steps) (hran : Runs.run step [] steps = some ts) :
    ¬ Deadlocked ts := by
  have hinit : Safe [] := ⟨by simp, by simp⟩
  have hsafe : Safe ts :=
    Runs.run_invariant_along (fun _ _ _ h hapart hstep => h.step hapart hstep) hinit ha hran
  exact hsafe.not_deadlocked

/-- A lookup in shard 1 comes to its promotion and a `put_evicting` to the demotion of an
entry of the given shard. -/
def promoteAndDemote (shard : Nat) : List CacheStep :=
  [.get 1 .spilled,
    .putEvicting 2 (.evictToFit ⟨[], rfl⟩ ⟨[], rfl⟩ [] [⟨⟨[], rfl⟩, some (shard, true)⟩]),
    .advance 0, .advance 0, .advance 0, .advance 1, .advance 1, .advance 1]

/-- In two shards the eviction waits for the lookup, and not the other way around. -/
theorem never_deadlocks_two_shards :
    ∃ ts t u, Runs.run step [] (promoteAndDemote 3) = some ts ∧ ts = [t, u] ∧ Promoting t 1 ∧
      Demoting u 3 ∧ ¬ Deadlocked ts :=
  ⟨_, _, _, rfl, rfl, by decide, by decide, never_deadlocks (promoteAndDemote 3) (by decide) rfl⟩

theorem not_never_deadlocks :
    ∃ ts, Runs.run step [] (promoteAndDemote 1) = some ts ∧ Deadlocked ts := by
  refine ⟨_, rfl, deadlocked_of_pair (show 0 ≠ 1 by decide) rfl rfl ?_ ?_⟩
  · exact ⟨.shard 1, .exclusive, _, rfl, (.shard 1, .shared), by decide, rfl, rfl⟩
  · exact ⟨.spill, .exclusive, _, rfl, (.spill, .shared), by decide, rfl, rfl⟩

end HeliosProxy.Cache.L2
