import HeliosProxy.Cache.QueryCache

/-!
# No served result predates a write of its tables

A lookup that misses takes a snapshot of the generation of its tables before
the rows are fetched, and every tier serves the stored rows only after an
`is_current` check finds the same generation.  Both are sums of counters
loaded one by one while writers increment them, so the snapshot and the check
are readings in the sense of `Counters.Reading`, and the safety of the cache
is `Counters.before_of_sums_agree` at the results it serves.

The invariant says of every result in a tier or in the hands of a call that it
was stored from a snapshot (`Known`), and of every result about to be served
that it was checked (`Checked`).  Both only speak about the past, so a step of
one task leaves them true for all others (`Extends`).
-/

namespace HeliosProxy.Cache

open Counters List Option Function

section Facts

variable {Q T F D : Type} [DecidableEq T]

/-- The counters behind a generation of `tables`. -/
def generationKeys (tables : List T) : List (Option T) := none :: tables.map some

/-- The generation of `prep` is a reading of its tables that ended at
`snapshotEnd`. -/
structure Snapped (sh : Shared Q T F D) (prep : QueryPrep T F) (generation snapshotEnd : Nat) :
    Prop where
  nodup : prep.tables.Nodup
  past : snapshotEnd ≤ sh.clock
  recorded : prep.generation = some generation
  bound : ∃ x, generation % word = x % word ∧
    x ≤ totalAt sh.marks (generationKeys prep.tables) snapshotEnd

/-- `prep` was returned by a missed lookup of thread `tid`. -/
def Missed (sh : Shared Q T F D) (tid : Nat) (op : Op Q) (prep : QueryPrep T F) : Prop :=
  ∃ generation snapshotEnd, .missed tid op prep snapshotEnd ∈ sh.log ∧
    Snapped sh prep generation snapshotEnd

/-- `r` was stored from what a missed lookup returned. -/
def Known (sh : Shared Q T F D) (r : CachedResult T D) : Prop :=
  ∃ tid op prep snapshotEnd, .missed tid op prep snapshotEnd ∈ sh.log ∧
    .stored tid op prep r ∈ sh.log ∧ prep.tables = r.tables ∧
    Snapped sh prep r.generation snapshotEnd

/-- An `is_current` of `r` that began at `checkBegan` has succeeded. -/
def Checked (sh : Shared Q T F D) (r : CachedResult T D) (checkBegan : Nat) : Prop :=
  ∃ y checkEnd, checkBegan ≤ checkEnd ∧ checkEnd ≤ sh.clock ∧ r.generation % word = y % word ∧
    totalAt sh.marks (generationKeys r.tables) checkBegan ≤ y ∧
    y ≤ totalAt sh.marks (generationKeys r.tables) checkEnd

/-- The loads of a `generation_of(tables)` so far. -/
def ReadOk (sh : Shared Q T F D) (tables : List T) (rd : Option (Reading (Option T))) : Prop :=
  ∀ r, rd = some r → r.Ok word sh.marks (generationKeys tables) ∧ r.ended ≤ sh.clock

/-- Every table of `tables` was marked since `began`. -/
def Marked (sh : Shared Q T F D) (keys : List (Option T)) (began ended : Nat) : Prop :=
  ∀ k ∈ keys, ∃ m ∈ sh.marks, m.1 = k ∧ began ≤ m.2 ∧ m.2 ≤ ended

/-- `sh'` is a later state: it has the history of `sh`. -/
structure Extends (sh sh' : Shared Q T F D) : Prop where
  clock : sh.clock ≤ sh'.clock
  log : ∀ e ∈ sh.log, e ∈ sh'.log
  marks : ∀ m ∈ sh.marks, m ∈ sh'.marks
  past : ∀ ks τ, τ ≤ sh.clock → totalAt sh'.marks ks τ = totalAt sh.marks ks τ

namespace Extends

variable {sh sh' sh'' : Shared Q T F D}

section

variable (h : Extends sh sh')
include h

theorem trans (h' : Extends sh' sh'') : Extends sh sh'' where
  clock := h.clock.trans h'.clock
  log e he := h'.log e (h.log e he)
  marks m hm := h'.marks m (h.marks m hm)
  past ks τ hτ := (h'.past ks τ (hτ.trans h.clock)).trans (h.past ks τ hτ)

variable {prep : QueryPrep T F}

theorem snapped {g e : Nat} (hs : Snapped sh prep g e) : Snapped sh' prep g e := by
  obtain ⟨x, hx, hle⟩ := hs.bound
  refine ⟨hs.nodup, hs.past.trans h.clock, hs.recorded, x, hx, ?_⟩
  rwa [h.past _ _ hs.past]

theorem missed {tid : Nat} {op : Op Q} (hm : Missed sh tid op prep) : Missed sh' tid op prep := by
  obtain ⟨g, e, hlog, hs⟩ := hm
  exact ⟨g, e, h.log _ hlog, h.snapped hs⟩

theorem known {r : CachedResult T D} (hk : Known sh r) : Known sh' r := by
  obtain ⟨tid, op, prep, e, hmissed, hstored, htables, hs⟩ := hk
  exact ⟨tid, op, prep, e, h.log _ hmissed, h.log _ hstored, htables, h.snapped hs⟩

theorem checked {r : CachedResult T D} {b : Nat} (hc : Checked sh r b) : Checked sh' r b := by
  obtain ⟨y, e, hbe, hclock, hgen, hlow, hhigh⟩ := hc
  refine ⟨y, e, hbe, hclock.trans h.clock, hgen, ?_, ?_⟩
  · rwa [h.past _ _ (hbe.trans hclock)]
  · rwa [h.past _ _ hclock]

theorem readOk {tables : List T} {rd : Option (Reading (Option T))}
    (hr : ReadOk sh tables rd) : ReadOk sh' tables rd := by
  intro r hrd
  obtain ⟨hok, hended⟩ := hr r hrd
  exact ⟨hok.of_same_past fun ks τ hτ => h.past ks τ (hτ.trans hended), hended.trans h.clock⟩

theorem marked {keys : List (Option T)} {began ended ended' : Nat}
    (hle : ended ≤ ended') (hm : Marked sh keys began ended) : Marked sh' keys began ended' := by
  intro k hk
  obtain ⟨m, hmem, hkey, hbegan, hended⟩ := hm k hk
  exact ⟨m, h.marks m hmem, hkey, hbegan, hended.trans hle⟩

end

theorem tick (sh : Shared Q T F D) : Extends sh sh.tick :=
  ⟨Nat.le_succ _, fun _ h => h, fun _ h => h, fun _ _ _ => rfl⟩

theorem apply [DecidableEq Q] (sh : Shared Q T F D) (e : Effect Q T F D) :
    Extends sh (sh.apply e) := by
  cases e with
  | mark key =>
    cases key <;>
    · refine ⟨le_rfl, fun _ h => h, fun _ h => mem_cons_of_mem _ h, fun ks τ hτ => ?_⟩
      exact totalAt_cons_of_le _ _ hτ
  | record event => exact ⟨le_rfl, fun _ h => mem_cons_of_mem _ h, fun _ h => h, fun _ _ _ => rfl⟩
  | _ => exact ⟨le_rfl, fun _ h => h, fun _ h => h, fun _ _ _ => rfl⟩

theorem effects [DecidableEq Q] (sh : Shared Q T F D) (es : List (Effect Q T F D)) :
    Extends sh (es.foldl Shared.apply sh).tick := by
  induction es generalizing sh with
  | nil => exact tick sh
  | cons e es ih => exact (apply sh e).trans (ih (sh.apply e))

end Extends

/-! ## The shared state -/

def WriteCall.keys (w : WriteCall T) : List (Option T) :=
  match w.tables with
  | none => [none]
  | some tables => tables.map some

/-- The invariant of the shared state, with all increments before `τ`: the
clock between two steps, and one past it while a step takes effect. -/
structure Shared.Inv (sh : Shared Q T F D) (τ : Nat) : Prop where
  counters : ∀ k, sh.generations.counter k = valueAt sh.marks k τ
  past : ∀ m ∈ sh.marks, m.2 < τ
  l1 : ∀ key r, sh.l1 key = some r → Known sh r
  l2 : ∀ hash r, sh.l2 hash = some r → Known sh r
  mmap : ∀ hash r, sh.mmap hash = some r → Known sh r
  l3 : ∀ slot ∈ sh.l3, Known sh slot.result
  served : ∀ tid level r b, .served tid level r b ∈ sh.log → Known sh r ∧ Checked sh r b
  calls : ∀ w ∈ sh.calls, Marked sh w.keys w.began w.ended

def Effect.Ok (sh : Shared Q T F D) : Effect Q T F D → Prop
  | .called w => Marked sh w.keys w.began w.ended
  | .setL1 _ entry | .setL2 _ entry | .setMmap _ entry => ∀ r, entry = some r → Known sh r
  | .pushL3 slot => Known sh slot.result
  | .record (.served _ _ r b) => Known sh r ∧ Checked sh r b
  | _ => True

def EffectsOk [DecidableEq Q] (sh : Shared Q T F D) : List (Effect Q T F D) → Prop
  | [] => True
  | e :: es => e.Ok sh ∧ EffectsOk (sh.apply e) es

theorem known_of_update {κ : Type} [DecidableEq κ] {sh : Shared Q T F D}
    {m : κ → Option (CachedResult T D)} {k : κ} {entry : Option (CachedResult T D)}
    (h : ∀ k r, m k = some r → Known sh r) (he : ∀ r, entry = some r → Known sh r) :
    ∀ k' r, update m k entry k' = some r → Known sh r := by
  intro k' r hr
  by_cases hk : k' = k
  · subst hk
    rw [update_self] at hr
    exact he r hr
  · rw [update_of_ne hk] at hr
    exact h k' r hr

namespace Shared.Inv

variable {sh sh' : Shared Q T F D} {τ τ' : Nat}

theorem init : (Shared.init : Shared Q T F D).Inv 0 where
  counters k := by simp [Shared.init, valueAt]
  past := by simp [Shared.init]
  l1 := by simp [Shared.init]
  l2 := by simp [Shared.init]
  mmap := by simp [Shared.init]
  l3 := by simp [Shared.init]
  served := by simp [Shared.init]
  calls := by simp [Shared.init]

/-- A later state keeps the invariant when what its tiers, its log and its
calls gained is accounted for. -/
theorem of_extends (h : sh.Inv τ) (hla : Extends sh sh')
    (hco : ∀ k, sh'.generations.counter k = valueAt sh'.marks k τ')
    (hp : ∀ m ∈ sh'.marks, m.2 < τ')
    (hl1 : ∀ key r, sh'.l1 key = some r → Known sh r)
    (hl2 : ∀ hash r, sh'.l2 hash = some r → Known sh r)
    (hm : ∀ hash r, sh'.mmap hash = some r → Known sh r)
    (hl3 : ∀ slot ∈ sh'.l3, Known sh slot.result)
    (hse : ∀ tid level r b, .served tid level r b ∈ sh'.log →
      .served tid level r b ∈ sh.log ∨ Known sh r ∧ Checked sh r b)
    (hca : ∀ w ∈ sh'.calls, w ∈ sh.calls ∨ Marked sh w.keys w.began w.ended) : sh'.Inv τ' where
  counters := hco
  past := hp
  l1 key r hr := hla.known (hl1 key r hr)
  l2 hash r hr := hla.known (hl2 hash r hr)
  mmap hash r hr := hla.known (hm hash r hr)
  l3 slot hs := hla.known (hl3 slot hs)
  served tid level r b hlog := by
    obtain ⟨hk, hc⟩ := (hse tid level r b hlog).elim (h.served tid level r b) id
    exact ⟨hla.known hk, hla.checked hc⟩
  calls w hw := hla.marked le_rfl ((hca w hw).elim (h.calls w) id)

theorem of_le (h : sh.Inv τ) (hle : τ ≤ τ') : sh.Inv τ' where
  counters k := (h.counters k).trans (valueAt_of_past sh.marks k h.past hle).symm
  past m hm := lt_of_lt_of_le (h.past m hm) hle
  l1 := h.l1
  l2 := h.l2
  mmap := h.mmap
  l3 := h.l3
  served := h.served
  calls := h.calls

theorem tick (h : sh.Inv (sh.clock + 1)) : sh.tick.Inv sh.tick.clock :=
  h.of_extends (.tick sh) h.counters h.past h.l1 h.l2 h.mmap h.l3 (fun _ _ _ _ h => .inl h)
    (fun _ h => .inl h)

theorem apply [DecidableEq Q] (h : sh.Inv (sh.clock + 1)) {e : Effect Q T F D} (hok : e.Ok sh) :
    (sh.apply e).Inv (sh.clock + 1) := by
  have hla := Extends.apply sh e
  have hserved : ∀ tid level r b, (.served tid level r b : Event Q T F D) ∈ sh.log →
      .served tid level r b ∈ sh.log ∨ Known sh r ∧ Checked sh r b := fun _ _ _ _ => .inl
  have hcalls : ∀ w ∈ sh.calls, w ∈ sh.calls ∨ Marked sh w.keys w.began w.ended :=
    fun _ => .inl
  cases e with
  | mark key =>
    have hpast : ∀ m ∈ (key, sh.clock) :: sh.marks, m.2 < sh.clock + 1 := by
      intro m hm
      rcases mem_cons.mp hm with rfl | hm
      · exact Nat.lt_succ_self _
      · exact h.past m hm
    have hcount : ∀ k, (sh.apply (.mark key)).generations.counter k =
        valueAt ((key, sh.clock) :: sh.marks) k (sh.clock + 1) := by
      intro k
      rw [valueAt_cons_of_lt _ _ (Nat.lt_succ_self sh.clock), ← h.counters k]
      cases key with
      | none => exact Generations.counter_invalidateAll _ _
      | some t => exact Generations.counter_bump _ _ _
    cases key with
    | none | some t => exact h.of_extends hla hcount hpast h.l1 h.l2 h.mmap h.l3 hserved hcalls
  | called w =>
    refine h.of_extends hla h.counters h.past h.l1 h.l2 h.mmap h.l3 hserved ?_
    intro w' hw'
    rcases mem_cons.mp hw' with rfl | hw'
    · exact .inr hok
    · exact .inl hw'
  | setFlag => exact h.of_extends hla h.counters h.past h.l1 h.l2 h.mmap h.l3 hserved hcalls
  | setL1 key entry =>
    exact h.of_extends hla h.counters h.past (known_of_update h.l1 hok) h.l2 h.mmap h.l3 hserved
      hcalls
  | setL2 hash entry =>
    exact h.of_extends hla h.counters h.past h.l1 (known_of_update h.l2 hok) h.mmap h.l3 hserved
      hcalls
  | setMmap hash entry =>
    exact h.of_extends hla h.counters h.past h.l1 h.l2 (known_of_update h.mmap hok) h.l3 hserved
      hcalls
  | pushL3 slot =>
    refine h.of_extends hla h.counters h.past h.l1 h.l2 h.mmap ?_ hserved hcalls
    intro slot' hs
    rcases mem_append.mp hs with hs | hs
    · exact h.l3 slot' hs
    · rw [mem_singleton.mp hs]
      exact hok
  | dropL3 index =>
    refine h.of_extends hla h.counters h.past h.l1 h.l2 h.mmap ?_ hserved hcalls
    intro slot hs
    exact h.l3 slot (mem_of_mem_eraseIdx hs)
  | record event =>
    refine h.of_extends hla h.counters h.past h.l1 h.l2 h.mmap h.l3 ?_ hcalls
    intro tid level r b hlog
    rcases mem_cons.mp hlog with rfl | hlog
    · exact .inr hok
    · exact .inl hlog

theorem clock_apply [DecidableEq Q] (sh : Shared Q T F D) (e : Effect Q T F D) :
    (sh.apply e).clock = sh.clock := by
  rcases e with (_ | _) | _ | _ | _ | _ | _ | _ | _ | _ <;> rfl

theorem effects [DecidableEq Q] {es : List (Effect Q T F D)} (h : sh.Inv sh.clock)
    (hok : EffectsOk sh es) :
    (es.foldl Shared.apply sh).tick.Inv (es.foldl Shared.apply sh).tick.clock := by
  have hm : ∀ sh : Shared Q T F D, sh.Inv (sh.clock + 1) → EffectsOk sh es →
      (es.foldl Shared.apply sh).Inv ((es.foldl Shared.apply sh).clock + 1) := by
    clear h hok
    induction es with
    | nil => exact fun _ h _ => h
    | cons e es ih =>
      intro sh h hok
      refine ih (sh.apply e) ?_ hok.2
      rw [clock_apply]
      exact h.apply hok.1
  exact (hm sh (h.of_le (Nat.le_succ _)) hok).tick

end Shared.Inv

end Facts

/-! ## The calls -/

section Calls

variable {Q T F D : Type} [DecidableEq T]

def CandidatesOk (sh : Shared Q T F D) (candidates : List (CachedResult T D × Nat)) : Prop :=
  ∀ p ∈ candidates, Known sh p.1 ∧ Checked sh p.1 p.2

def Lookup.Ok (cfg : Config Q T F D) (sh : Shared Q T F D) (op : Op Q) : Lookup T F D → Prop
  | .l1Check r rd | .l2Check _ r rd => Known sh r ∧ ReadOk sh r.tables rd
  | .l2Promote _ r => Known sh r
  | .l1Promote r b => Known sh r ∧ Checked sh r b
  | .l3Scan _ _ slots candidates => (∀ s ∈ slots, Known sh s.result) ∧ CandidatesOk sh candidates
  | .l3Check _ _ slot slots candidates rd =>
    (∀ s ∈ slot :: slots, Known sh s.result) ∧ CandidatesOk sh candidates ∧
      ReadOk sh slot.result.tables rd
  | .l3Score _ _ candidates => CandidatesOk sh candidates
  | .snapshot v _ rd => ReadOk sh (cfg.tables op.query v) rd
  | _ => True

def Store.Ok (sh : Shared Q T F D) (prep : QueryPrep T F) : Store T F D → Prop
  | .check _ _ => True
  | .mode _ generation => prep.generation = some generation
  | .l1Put r | .l2Put r | .l3Mode r | .l3Put _ r => Known sh r

def Thread.Ok (cfg : Config Q T F D) (sh : Shared Q T F D) (tid : Nat) : Thread Q T F D → Prop
  | .idle none => True
  | .idle (some (op, prep)) => prep.skip = true ∨ Missed sh tid op prep
  | .lookup op pc => pc.Ok cfg sh op
  | .store op prep pc => Missed sh tid op prep ∧ pc.Ok sh prep
  | .mark began tables todo _ => began ≤ sh.clock ∧
      ∃ done, tables = done ++ todo ∧ Marked sh (done.map some) began sh.clock
  | .note => True

section Mono

variable {cfg : Config Q T F D} {sh sh' : Shared Q T F D}

section

variable (hla : Extends sh sh')
include hla

theorem CandidatesOk.mono {candidates : List (CachedResult T D × Nat)}
    (h : CandidatesOk sh candidates) : CandidatesOk sh' candidates :=
  fun p hp => ⟨hla.known (h p hp).1, hla.checked (h p hp).2⟩

theorem Lookup.Ok.mono {op : Op Q} {pc : Lookup T F D}
    (h : pc.Ok cfg sh op) : pc.Ok cfg sh' op := by
  cases pc with
  | l1Check r rd | l2Check v r rd => exact ⟨hla.known h.1, hla.readOk h.2⟩
  | l2Promote v r => exact hla.known h
  | l1Promote r b => exact ⟨hla.known h.1, hla.checked h.2⟩
  | l3Scan v c slots candidates => exact ⟨fun s hs => hla.known (h.1 s hs), h.2.mono hla⟩
  | l3Check v c slot slots candidates rd =>
    exact ⟨fun s hs => hla.known (h.1 s hs), h.2.1.mono hla, hla.readOk h.2.2⟩
  | l3Score v c candidates => exact CandidatesOk.mono hla h
  | snapshot v semantic rd => exact hla.readOk h
  | _ => trivial

theorem Store.Ok.mono {prep : QueryPrep T F} {pc : Store T F D}
    (h : pc.Ok sh prep) : pc.Ok sh' prep := by
  cases pc with
  | check data rd => trivial
  | mode data generation => exact h
  | l1Put r | l2Put r | l3Mode r | l3Put c r => exact hla.known h

theorem Thread.Ok.mono {tid : Nat} {th : Thread Q T F D}
    (h : th.Ok cfg sh tid) : th.Ok cfg sh' tid := by
  cases th with
  | idle prep =>
    cases prep with
    | none => trivial
    | some p => exact h.imp id hla.missed
  | lookup op pc => exact Lookup.Ok.mono hla h
  | store op prep pc => exact ⟨hla.missed h.1, h.2.mono hla⟩
  | mark began tables todo absent =>
    obtain ⟨hbegan, done, htables, hmarked⟩ := h
    exact ⟨hbegan.trans hla.clock, done, htables, hla.marked hla.clock hmarked⟩
  | note => trivial

end

end Mono

section Steps

variable {cfg : Config Q T F D} {sh : Shared Q T F D}

theorem readOk_none (sh : Shared Q T F D) (tables : List T) : ReadOk sh tables none := by
  intro r hr
  cases hr

variable {tables : List T} {rd : Option (Reading (Option T))}

theorem readOk_generationStep (hi : sh.Inv sh.clock) (h : ReadOk sh tables rd) :
    ReadOk sh tables (some (generationStep sh tables rd)) := by
  intro r hr
  cases hr
  cases rd with
  | none =>
    refine ⟨?_, le_rfl⟩
    rw [generationStep, hi.counters]
    exact Reading.Ok.start
  | some rd =>
    obtain ⟨hok, hended⟩ := h rd rfl
    cases htodo : rd.todo with
    | nil =>
      simp only [generationStep, htodo]
      exact ⟨hok, hended⟩
    | cons k rest =>
      simp only [generationStep, htodo, hi.counters]
      exact ⟨hok.load htodo hended, le_rfl⟩

omit [DecidableEq T] in
theorem completed_eq_some {r : Reading (Option T)}
    (h : completed rd = some r) : rd = some r ∧ r.todo = [] := by
  obtain ⟨hrd, hdone⟩ := filter_eq_some_iff.mp h
  exact ⟨hrd, by simpa using hdone⟩

variable {r : CachedResult T D}

/-- A finished reading that found the generation of `r` has checked `r`. -/
theorem checked_of_completed
    {rd' : Reading (Option T)} (h : ReadOk sh r.tables rd) (hd : completed rd = some rd')
    (hs : r.generation = rd'.sum) : Checked sh r rd'.began := by
  obtain ⟨hrd, htodo⟩ := completed_eq_some hd
  obtain ⟨hok, hended⟩ := h rd' hrd
  obtain ⟨y, hsum, hlow, hhigh⟩ := hok.of_done htodo
  exact ⟨y, rd'.ended, hok.ordered, hended, hs ▸ hsum, hlow, hhigh⟩

theorem afterL2_ok (cfg : Config Q T F D) (sh : Shared Q T F D) (op : Op Q) (v : Bool) :
    (afterL2 cfg op v).Ok cfg sh op := by
  unfold afterL2
  split
  · trivial
  · exact readOk_none sh _

variable [DecidableEq Q]

/-- A step is good when its effects are, and leaves its thread in a good
state. -/
def StepOk (cfg : Config Q T F D) (sh : Shared Q T F D) (tid : Nat)
    (next : Thread Q T F D × List (Effect Q T F D)) : Prop :=
  EffectsOk sh next.2 ∧ next.1.Ok cfg (next.2.foldl Shared.apply sh).tick tid

variable {tid : Nat} {th : Thread Q T F D}

theorem StepOk.of_ok {es : List (Effect Q T F D)}
    (he : EffectsOk sh es) (h : th.Ok cfg sh tid) : StepOk cfg sh tid (th, es) :=
  ⟨he, h.mono (Extends.effects sh es)⟩

theorem StepOk.quiet (h : th.Ok cfg sh tid) :
    StepOk cfg sh tid (th, []) :=
  .of_ok trivial h

theorem StepOk.serve {level : CacheLevel} {b : Nat}
    (hk : Known sh r) (hc : Checked sh r b) :
    StepOk cfg sh tid (.idle none, [.record (.served tid level r b)]) :=
  .of_ok ⟨⟨hk, hc⟩, trivial⟩ trivial

theorem lookupStep_ok (hin : sh.Inv sh.clock) (tid : Nat) (op : Op Q) (ch : Choice)
    {pc : Lookup T F D} (h : pc.Ok cfg sh op) :
    StepOk cfg sh tid (lookupStep cfg sh tid op ch pc) := by
  have hd : ∀ r : CachedResult T D, none = some r → Known sh r := by
    intro r hr
    cases hr
  have ha : ∀ v, (Thread.lookup op (afterL2 cfg op v)).Ok cfg sh tid := afterL2_ok cfg sh op
  cases pc with
  | l1Get =>
    simp only [lookupStep]
    split
    · exact .quiet trivial
    split
    · exact .quiet trivial
    next key _ _ r hr =>
      split
      · exact .quiet ⟨hin.l1 key r hr, readOk_none sh _⟩
      · exact .of_ok ⟨hd, trivial⟩ trivial
  | l1Check r rd =>
    obtain ⟨hknown, hread⟩ := h
    simp only [lookupStep]
    split
    · exact .quiet ⟨hknown, readOk_generationStep hin hread⟩
    next rd' hdone =>
      split
      next hsame =>
        split
        · exact .serve hknown (checked_of_completed hread hdone hsame)
        · exact .quiet trivial
      · exact .quiet trivial
  | l1Remove =>
    simp only [lookupStep]
    split
    · exact .quiet trivial
    · exact .of_ok ⟨hd, trivial⟩ trivial
  | keyMode =>
    simp only [lookupStep]
    split
    · exact .quiet trivial
    · exact .quiet (ha _)
  | l2Get v =>
    simp only [lookupStep]
    split
    · exact .quiet trivial
    next r hr =>
      split
      · exact .quiet ⟨hin.l2 _ r hr, readOk_none sh _⟩
      · exact .of_ok ⟨hd, trivial⟩ (ha v)
  | l2Mmap v =>
    simp only [lookupStep]
    split
    · exact .quiet (ha v)
    next r hr => exact .quiet (hin.mmap _ r hr)
  | l2Promote v r =>
    refine .of_ok ⟨?_, trivial⟩ ⟨h, readOk_none sh _⟩
    intro r' hr'
    cases hr'
    exact h
  | l2Check v r rd =>
    obtain ⟨hknown, hread⟩ := h
    simp only [lookupStep]
    split
    · exact .quiet ⟨hknown, readOk_generationStep hin hread⟩
    next rd' hdone =>
      split
      next hsame =>
        split
        · exact .quiet ⟨hknown, checked_of_completed hread hdone hsame⟩
        · exact .quiet (ha v)
      · exact .quiet trivial
  | l2Remove v => exact .of_ok ⟨hd, trivial⟩ (ha v)
  | l1Promote r b =>
    simp only [lookupStep]
    split
    · exact .serve h.1 h.2
    · next key _ =>
      have hpu : (Effect.setL1 key (some r) : Effect Q T F D).Ok sh := by
        intro r' hr'
        cases hr'
        exact h.1
      have hla := Extends.apply sh (.setL1 key (some r))
      exact .of_ok ⟨hpu, ⟨hla.known h.1, hla.checked h.2⟩, trivial⟩ trivial
  | l3Mode v =>
    simp only [lookupStep]
    split
    · exact .quiet (readOk_none sh _)
    split
    · exact .quiet (readOk_none sh _)
    · exact .quiet trivial
  | l3Get v c =>
    refine .quiet ⟨?_, ?_⟩
    · intro s hs
      rw [mem_reverse] at hs
      exact hin.l3 s (mem_of_mem_filter hs)
    · intro p hp
      cases hp
  | l3Scan v c slots candidates =>
    cases slots with
    | nil => exact .quiet h.2
    | cons slot slots =>
      simp only [lookupStep]
      split
      · exact .quiet ⟨h.1, h.2, readOk_none sh _⟩
      · exact .quiet ⟨fun s hs => h.1 s (mem_cons_of_mem _ hs), h.2⟩
  | l3Check v c slot slots candidates rd =>
    obtain ⟨hslots, hcands, hread⟩ := h
    have hknown : Known sh slot.result := hslots slot mem_cons_self
    have hrest : ∀ s ∈ slots, Known sh s.result := fun s hs => hslots s (mem_cons_of_mem _ hs)
    simp only [lookupStep]
    split
    · exact .quiet ⟨hslots, hcands, readOk_generationStep hin hread⟩
    next rd' hdone =>
      split
      next hsame =>
        simp only [Bool.and_eq_true, decide_eq_true_eq] at hsame
        have hchecked := checked_of_completed hread hdone hsame.1
        split
        · exact .serve hknown hchecked
        split
        · refine .quiet ⟨hrest, ?_⟩
          intro p hp
          rcases mem_append.mp hp with hp | hp
          · exact hcands p hp
          · rw [mem_singleton.mp hp]
            exact ⟨hknown, hchecked⟩
        · exact .quiet ⟨hrest, hcands⟩
      · exact .quiet ⟨hrest, hcands⟩
  | l3Score v c candidates =>
    simp only [lookupStep]
    split
    next r b hbest =>
      obtain ⟨i, _, hi⟩ := bind_eq_some_iff.mp hbest
      obtain ⟨hknown, hchecked⟩ := h (r, b) (mem_of_getElem? hi)
      exact .serve hknown hchecked
    · exact .quiet (readOk_none sh _)
  | snapshot v semantic rd =>
    simp only [lookupStep]
    split
    · exact .quiet (readOk_generationStep hin h)
    next rd' hdone =>
      obtain ⟨hrd, htodo⟩ := completed_eq_some hdone
      obtain ⟨hok, hended⟩ := h rd' hrd
      obtain ⟨x, hsum, _, hhigh⟩ := hok.of_done htodo
      refine ⟨⟨trivial, trivial⟩, .inr ⟨rd'.sum, rd'.ended, mem_cons_self, ?_⟩⟩
      exact ⟨cfg.tables_nodup _ _, hended.trans (Nat.le_succ _), rfl, x, hsum, hhigh⟩

theorem storeStep_ok {op : Op Q} {prep : QueryPrep T F} {pc : Store T F D}
    (hm : Missed sh tid op prep) (h : pc.Ok sh prep) :
    StepOk cfg sh tid (storeStep cfg sh tid op prep pc) := by
  have hb : (Thread.idle (some (op, prep)) : Thread Q T F D).Ok cfg sh tid := .inr hm
  have hp : ∀ r : CachedResult T D, Known sh r → ∀ r', some r = some r' → Known sh r' := by
    intro r hr r' heq
    cases heq
    exact hr
  cases pc with
  | check data rd =>
    simp only [storeStep]
    split
    · exact .quiet ⟨hm, trivial⟩
    split
    · have hmissed := hm
      obtain ⟨g, _, _, hsnap⟩ := hmissed
      refine .quiet ⟨hm, ?_⟩
      simp [Store.Ok, hsnap.recorded]
    · exact .quiet hb
  | mode data generation =>
    simp only [storeStep]
    split
    · obtain ⟨g, e, hlog, hsnap⟩ := hm
      obtain rfl : g = generation := Option.some.inj (hsnap.recorded.symm.trans h)
      have hla := Extends.effects sh
        [.record (.stored tid op prep (⟨data, prep.tables, g⟩ : CachedResult T D))]
      refine ⟨⟨trivial, trivial⟩, hla.missed ⟨g, e, hlog, hsnap⟩, ?_⟩
      exact ⟨tid, op, prep, e, hla.log _ hlog, mem_cons_self, rfl, hla.snapped hsnap⟩
    · exact .quiet hb
  | l1Put r =>
    simp only [storeStep]
    split
    · exact .quiet ⟨hm, h⟩
    · exact .of_ok ⟨hp r h, trivial⟩ ⟨hm, h⟩
  | l2Put r =>
    simp only [storeStep]
    split
    · exact .of_ok ⟨hp r h, trivial⟩ ⟨hm, h⟩
    · exact .quiet ⟨hm, h⟩
  | l3Mode r =>
    simp only [storeStep]
    split
    · split
      · exact .quiet ⟨hm, h⟩
      · exact .quiet hb
    · exact .quiet hb
  | l3Put c r => exact .of_ok ⟨h, trivial⟩ hb

variable {began : Nat} {todo : List T} {absent : Bool}

/-- Marking the next table of a `mark_written`. -/
theorem markStep_next {t : T}
    (h : (Thread.mark began tables (t :: todo) absent : Thread Q T F D).Ok cfg sh tid) :
    StepOk cfg sh tid (.mark began tables todo false, [.mark (some t)]) := by
  obtain ⟨hbegan, done, htables, hmarked⟩ := h
  have hla := Extends.effects sh [.mark (some t)]
  refine ⟨⟨trivial, trivial⟩, hbegan.trans hla.clock, done ++ [t], by simp [htables], ?_⟩
  intro k hk
  rw [map_append, mem_append] at hk
  rcases hk with hk | hk
  · exact hla.marked hla.clock hmarked k hk
  · obtain rfl : k = some t := by simpa using hk
    exact ⟨(some t, sh.clock), mem_cons_self, rfl, hbegan, Nat.le_succ _⟩

theorem markStep_ok
    (h : (Thread.mark began tables todo absent : Thread Q T F D).Ok cfg sh tid) :
    StepOk cfg sh tid (markStep sh began tables todo absent) := by
  cases todo with
  | nil =>
    obtain ⟨_, done, htables, hmarked⟩ := h
    refine .of_ok ⟨?_, trivial⟩ trivial
    simp only [List.append_nil] at htables
    subst htables
    exact hmarked
  | cons t todo =>
    cases absent with
    | true => exact markStep_next h
    | false =>
      simp only [markStep]
      split
      · exact markStep_next h
      · exact .quiet h

/-- The effects of `invalidate_all`. -/
theorem invalidateAll_ok (sh : Shared Q T F D) :
    EffectsOk sh [.mark none, .called ⟨none, sh.clock, sh.clock⟩] := by
  refine ⟨trivial, ?_, trivial⟩
  intro k hk
  obtain rfl : k = none := by simpa [WriteCall.keys] using hk
  exact ⟨(none, sh.clock), mem_cons_self, rfl, le_rfl, le_rfl⟩

theorem threadStep_ok (hi : sh.Inv sh.clock) {ch : Choice}
    (h : th.Ok cfg sh tid) {next : Thread Q T F D × List (Effect Q T F D)}
    (hstep : threadStep cfg sh tid ch th = some next) : StepOk cfg sh tid next := by
  cases th with
  | idle prep => cases hstep
  | lookup op pc =>
    cases hstep
    exact lookupStep_ok hi tid op ch h
  | store op prep pc =>
    cases hstep
    exact storeStep_ok h.1 h.2
  | mark began tables todo absent =>
    cases hstep
    exact markStep_ok h
  | note =>
    cases hstep
    exact .of_ok (invalidateAll_ok sh) trivial

end Steps

end Calls

/-! ## Runs -/

section Runs

variable {Q T F D : Type} [DecidableEq Q] [DecidableEq T] {cfg : Config Q T F D}
  {s s' : State Q T F D}

structure State.Inv (cfg : Config Q T F D) (s : State Q T F D) : Prop where
  shared : s.shared.Inv s.shared.clock
  threads : ∀ tid, (s.threads tid).Ok cfg s.shared tid

omit [DecidableEq Q] in
theorem State.Inv.init : (State.init : State Q T F D).Inv cfg :=
  ⟨Shared.Inv.init, fun _ => trivial⟩

variable {tid : Nat} {es : List (Effect Q T F D)}

theorem State.Inv.commit (h : s.Inv cfg) {th : Thread Q T F D}
    (hok : StepOk cfg s.shared tid (th, es)) :
    (s.commit tid th es).Inv cfg := by
  refine ⟨h.shared.effects hok.1, ?_⟩
  intro tid'
  by_cases htid : tid' = tid
  · subst htid
    simp only [State.commit, update_self]
    exact hok.2
  · simp only [State.commit, update_of_ne htid]
    exact (h.threads tid').mono (Extends.effects s.shared es)

theorem State.Inv.disturb (h : s.Inv cfg)
    (hok : EffectsOk s.shared es) : (s.disturb es).Inv cfg :=
  ⟨h.shared.effects hok, fun tid => (h.threads tid).mono (Extends.effects s.shared es)⟩

omit [DecidableEq Q] [DecidableEq T] in
theorem State.idle?_eq_some {prep : Option (Op Q × QueryPrep T F)}
    (h : s.idle? tid = some prep) : s.threads tid = .idle prep := by
  unfold State.idle? at h
  split at h
  next hth =>
    cases h
    exact hth
  · cases h

theorem step_inv (a : Action Q T D) (h : s.Inv cfg) (hstep : step cfg s a = some s') :
    s'.Inv cfg := by
  have hd : ∀ r : CachedResult T D, none = some r → Known s.shared r := by
    intro r hr
    cases hr
  cases a with
  | lookup tid op =>
    obtain ⟨prep, _, rfl⟩ := map_eq_some_iff.mp hstep
    refine h.commit (.quiet ?_)
    unfold beginLookup
    split
    · exact .inl rfl
    · trivial
  | store tid data =>
    simp only [step] at hstep
    split at hstep
    next op prep hidle =>
      cases hstep
      have hth := h.threads tid
      rw [State.idle?_eq_some hidle] at hth
      refine h.commit (.quiet ?_)
      unfold beginStore
      split
      next hgo =>
        simp only [Bool.and_eq_true] at hgo
        refine ⟨?_, trivial⟩
        rcases hth with hskip | hmissed
        · rw [hskip] at hgo
          cases hgo.1
        · exact hmissed
      · exact hth
    · cases hstep
  | markWritten tid tables =>
    obtain ⟨prep, _, rfl⟩ := map_eq_some_iff.mp hstep
    refine h.commit (.quiet ⟨le_rfl, [], rfl, ?_⟩)
    intro k hk
    cases hk
  | noteHeliosdbBackend tid =>
    obtain ⟨prep, hidle, rfl⟩ := map_eq_some_iff.mp hstep
    split
    · refine h.commit (.quiet ?_)
      have hth := h.threads tid
      rwa [State.idle?_eq_some hidle] at hth
    · exact h.commit (.of_ok ⟨trivial, trivial⟩ trivial)
  | invalidateAll =>
    cases hstep
    exact h.disturb (invalidateAll_ok s.shared)
  | advance tid ch =>
    obtain ⟨next, hnext, rfl⟩ := map_eq_some_iff.mp hstep
    exact h.commit (threadStep_ok h.shared (h.threads tid) hnext)
  | evictL1 key | evictL2 hash | evictMmap hash =>
    cases hstep
    exact h.disturb ⟨hd, trivial⟩
  | spill hash =>
    cases hstep
    exact h.disturb ⟨fun r hr => h.shared.l2 hash r hr, trivial⟩
  | evictL3 index =>
    cases hstep
    exact h.disturb ⟨trivial, trivial⟩

theorem run_inv {acts : List (Action Q T D)} (hr : Runs.run (step cfg) .init acts = some s) :
    s.Inv cfg :=
  Runs.run_invariant (fun _ a _ h hstep => step_inv a h hstep) State.Inv.init hr

omit [DecidableEq Q] in
theorem Known.served_after {sh : Shared Q T F D} {r : CachedResult T D} {checkBegan : Nat}
    (hk : Known sh r) (hc : Checked sh r checkBegan) (hf : sh.marks.length < word) :
    ∃ filler op prep snapshotEnd, .missed filler op prep snapshotEnd ∈ sh.log ∧
      .stored filler op prep r ∈ sh.log ∧ prep.tables = r.tables ∧
      ∀ m ∈ sh.marks, m.1 ∈ generationKeys r.tables → m.2 < checkBegan → m.2 < snapshotEnd := by
  obtain ⟨filler, op, prep, snapshotEnd, hmissed, hstored, htables, hsnap⟩ := hk
  obtain ⟨x, hx, hsnapped⟩ := hsnap.bound
  obtain ⟨y, checkEnd, _, _, hy, hlow, hhigh⟩ := hc
  have hn : (generationKeys r.tables).Nodup := by
    refine nodup_cons.mpr ⟨by simp, ?_⟩
    exact (htables ▸ hsnap.nodup).map fun _ _ => Option.some.inj
  refine ⟨filler, op, prep, snapshotEnd, hmissed, hstored, htables, ?_⟩
  intro m hm hkey hearly
  rw [htables] at hsnapped
  exact before_of_sums_agree hn hf (hx.symm.trans hy) hsnapped hlow hhigh hm hkey hearly

/-- **Write-generation safety.**  In every run with fewer increments than a
counter can hold, take a result that a lookup has served from any tier, and
the instant its `is_current` check began.  The result was stored by a thread
with what its own lookup missed with, and every increment before the check of
the global counter or of the counter of one of its tables came before the
last load of that lookup's snapshot.  So no `mark_written` of one of the
tables and no `invalidate_all` fell between the snapshot and the check. -/
theorem served_after_writes {acts : List (Action Q T D)}
    (hran : Runs.run (step cfg) .init acts = some s) (hnoWrap : s.shared.marks.length < word)
    {tid : Nat} {level : CacheLevel} {r : CachedResult T D} {checkBegan : Nat}
    (hserved : .served tid level r checkBegan ∈ s.shared.log) :
    ∃ filler op prep snapshotEnd, .missed filler op prep snapshotEnd ∈ s.shared.log ∧
      .stored filler op prep r ∈ s.shared.log ∧ prep.tables = r.tables ∧
      (∀ m ∈ s.shared.marks, m.1 ∈ generationKeys r.tables → m.2 < checkBegan →
        m.2 < snapshotEnd) ∧
      ∀ w ∈ s.shared.calls, (∃ k ∈ w.keys, k ∈ generationKeys r.tables) →
        ¬ (snapshotEnd ≤ w.began ∧ w.ended < checkBegan) := by
  have hinv := run_inv hran
  obtain ⟨hknown, hchecked⟩ := hinv.shared.served tid level r checkBegan hserved
  obtain ⟨filler, op, prep, snapshotEnd, hmissed, hstored, htables, hmarks⟩ :=
    hknown.served_after hchecked hnoWrap
  refine ⟨filler, op, prep, snapshotEnd, hmissed, hstored, htables, hmarks, ?_⟩
  rintro w hw ⟨k, hkw, hkr⟩ ⟨hlate, hended⟩
  obtain ⟨m, hm, rfl, hbegan, hbefore⟩ := hinv.shared.calls w hw k hkw
  have := hmarks m hm hkr (by omega)
  omega

end Runs

section Sample

def sampleConfig : Config Nat Nat Unit Nat where
  l1Enabled := true
  l2Enabled := true
  l3Enabled := false
  canonicalMatch := false
  hintSkip _ := false
  hintSemantic _ := false
  tables q _ := [q]
  tables_nodup _ _ := nodup_singleton _
  keyHash q _ _ := q
  semanticForm _ _ := none
  sameShape _ _ := true
  sameSelect _ _ := true
  approximable _ := false
  fits _ := true

def sampleLookup (tid : Nat) : List (Action Nat Nat Nat) :=
  .lookup tid ⟨1, ⟨"db", none, none, some tid⟩⟩ ::
    List.replicate 7 (.advance tid ⟨true, true, none⟩)

/-- A write of table `1`, a lookup that misses and stores, and two lookups on
another connection: the first is served from L2 and promotes to L1. -/
def sampleRun : List (Action Nat Nat Nat) :=
  .markWritten 0 [1] :: List.replicate 3 (.advance 0 ⟨true, true, none⟩) ++ sampleLookup 1 ++
    .store 1 42 :: List.replicate 7 (.advance 1 ⟨true, true, none⟩) ++ sampleLookup 2 ++
    (sampleLookup 2).take 5

/-- The run above ends, with the promoted result served from L1. -/
theorem served_after_writes_promoted : ∃ s, Runs.run (step sampleConfig) .init sampleRun = some s ∧
    ∃ filler op prep snapshotEnd, .missed filler op prep snapshotEnd ∈ s.shared.log ∧
      .stored filler op prep ⟨42, [1], 1⟩ ∈ s.shared.log ∧ prep.tables = [1] ∧
      (∀ m ∈ s.shared.marks, m.1 ∈ generationKeys [1] → m.2 < 30 → m.2 < snapshotEnd) ∧
      ∀ w ∈ s.shared.calls, (∃ k ∈ w.keys, k ∈ generationKeys [1]) →
        ¬ (snapshotEnd ≤ w.began ∧ w.ended < 30) := by
  have hrun : ((Runs.run (step sampleConfig) .init sampleRun).map fun s =>
      decide (s.shared.marks.length < word ∧
        .served 2 .l1Hot (⟨42, [1], 1⟩ : CachedResult Nat Nat) 30 ∈ s.shared.log)) = some true := by
    decide
  obtain ⟨s, hs, hfacts⟩ := map_eq_some_iff.mp hrun
  obtain ⟨hwrap, hserved⟩ := of_decide_eq_true hfacts
  exact ⟨s, hs, served_after_writes hs hwrap hserved⟩

end Sample

end HeliosProxy.Cache
