import HeliosProxy.Cache.GenerationSafety

/-!
# The switch to verbatim keys

`note_heliosdb_backend` sets the flag that makes lookups compute their keys the other way,
and retires all entries only after that.  In between, a lookup in the new mode is served
what was stored in the old one, where their keys coincide.  A lookup that loads the flag at
any other time is not: what was stored under the old keys was snapped before the flag was
set, and is stale once the entries are retired.
-/

namespace HeliosProxy.Cache

open Counters List Option Function

section Modes

variable {Q T F D : Type}

/-- The loads of the `is_current` check of a lookup that is at L2 with a verbatim key. -/
def Thread.verbatimL2 : Thread Q T F D → Option (Option (Reading (Option T)))
  | .lookup _ (.l2Get true) | .lookup _ (.l2Mmap true) | .lookup _ (.l2Promote true _) => some none
  | .lookup _ (.l2Check true _ rd) => some rd
  | _ => none

/-- A lookup does not load the flag while a `note_heliosdb_backend` is between setting it
and retiring the entries. -/
def KeysSettled (s : State Q T F D) : Action Q T D → Prop
  | .advance tid _ => ∀ op, s.threads tid = .lookup op .keyMode → ∀ other, s.threads other ≠ .note
  | _ => True

/-- All entries were retired at an instant from `since` to before `until'`. -/
def Flushed (sh : Shared Q T F D) (since until' : Nat) : Prop :=
  ∃ m ∈ sh.marks, m.1 = none ∧ since ≤ m.2 ∧ m.2 < until'

section Lookups

theorem verbatimL2_afterL2 (cfg : Config Q T F D) (op : Op Q) (v : Bool) :
    (Thread.lookup op (afterL2 cfg op v) : Thread Q T F D).verbatimL2 = none := by
  unfold afterL2
  split <;> rfl

theorem began_generationStep (sh : Shared Q T F D) (tables : List T)
    (rd : Option (Reading (Option T))) :
    (∃ r₀ ∈ rd, r₀.began = (generationStep sh tables rd).began) ∨
      (generationStep sh tables rd).began = sh.clock := by
  cases rd with
  | none => exact .inr rfl
  | some rd =>
    refine .inl ⟨rd, rfl, ?_⟩
    simp only [generationStep]
    split <;> rfl

variable {cfg : Config Q T F D} {sh : Shared Q T F D} {tid : Nat} {op : Op Q} {ch : Choice}

/-- A lookup comes to L2 with a verbatim key where the flag is set; from then on it reads
the counters of a result only after that. -/
theorem lookupStep_verbatimL2 {pc : Lookup T F D}
    {rd : Option (Reading (Option T))}
    (hn : (lookupStep cfg sh tid op ch pc).1.verbatimL2 = some rd) :
    (pc = .keyMode ∧ sh.heliosdbBackend ∧ rd = none) ∨
      ∃ rd₀, (Thread.lookup op pc : Thread Q T F D).verbatimL2 = some rd₀ ∧
        ∀ r ∈ rd, (∃ r₀ ∈ rd₀, r₀.began = r.began) ∨ r.began = sh.clock := by
  cases pc with
  | keyMode =>
    simp only [lookupStep] at hn
    split at hn
    · cases hf : sh.heliosdbBackend with
      | true =>
        rw [hf] at hn
        cases hn
        exact .inl ⟨rfl, rfl, rfl⟩
      | false =>
        rw [hf] at hn
        cases hn
    · rw [verbatimL2_afterL2] at hn
      cases hn
  | l2Get v =>
    simp only [lookupStep] at hn
    split at hn
    · cases v with
      | false => cases hn
      | true =>
        cases hn
        exact .inr ⟨none, rfl, by rintro r ⟨⟩⟩
    · split at hn
      · cases v with
        | false => cases hn
        | true =>
          cases hn
          exact .inr ⟨none, rfl, by rintro r ⟨⟩⟩
      · rw [verbatimL2_afterL2] at hn
        cases hn
  | l2Mmap v =>
    simp only [lookupStep] at hn
    split at hn
    · rw [verbatimL2_afterL2] at hn
      cases hn
    · cases v with
      | false => cases hn
      | true =>
        cases hn
        exact .inr ⟨none, rfl, by rintro r ⟨⟩⟩
  | l2Promote v r =>
    cases v with
    | false => cases hn
    | true =>
      cases hn
      exact .inr ⟨none, rfl, by rintro r ⟨⟩⟩
  | l2Check v r rd₀ =>
    simp only [lookupStep] at hn
    split at hn
    · cases v with
      | false => cases hn
      | true =>
        cases hn
        refine .inr ⟨rd₀, rfl, ?_⟩
        rintro r' ⟨⟩
        exact began_generationStep sh _ rd₀
    · split at hn
      · split at hn
        · cases hn
        · rw [verbatimL2_afterL2] at hn
          cases hn
      · cases hn
  | l2Remove v =>
    simp only [lookupStep, verbatimL2_afterL2] at hn
    cases hn
  | l3Scan v c slots candidates =>
    cases slots with
    | nil => cases hn
    | cons slot slots =>
      simp only [lookupStep] at hn
      split at hn <;> cases hn
  | l3Get | l1Remove | l1Get | l1Check | l1Promote | l3Mode | l3Check | l3Score | snapshot =>
    simp only [lookupStep] at hn
    repeat' split at hn
    all_goals cases hn

def Effect.plain : Effect Q T F D → Bool
  | .setFlag => false
  | .record (.stored _ _ _ _) => false
  | _ => true

theorem lookupStep_plain (pc : Lookup T F D) :
    (lookupStep cfg sh tid op ch pc).2.all Effect.plain ∧
      (lookupStep cfg sh tid op ch pc).1 ≠ .note := by
  cases pc with
  | _ =>
    simp only [lookupStep]
    repeat' split
    all_goals exact ⟨rfl, by rintro ⟨⟩⟩

theorem storeStep_verbatimL2
    {prep : QueryPrep T F} (pc : Store T F D) :
    (storeStep cfg sh tid op prep pc).1.verbatimL2 = none := by
  cases pc <;> simp only [storeStep] <;> repeat' split
  all_goals rfl

theorem markStep_plain {began : Nat} {tables : List T} (todo : List T) (absent : Bool) :
    (markStep sh began tables todo absent).2.all Effect.plain ∧
      (markStep sh began tables todo absent).1 ≠ .note ∧
      (markStep sh began tables todo absent).1.verbatimL2 = none := by
  cases todo with
  | nil => exact ⟨rfl, by rintro ⟨⟩, rfl⟩
  | cons t todo =>
    cases absent with
    | true => exact ⟨rfl, by rintro ⟨⟩, rfl⟩
    | false =>
      simp only [markStep]
      split <;> exact ⟨rfl, by rintro ⟨⟩, rfl⟩

end Lookups

variable [DecidableEq T]

/-- The generation of `r` was read before `since`. -/
structure SnappedBefore (sh : Shared Q T F D) (r : CachedResult T D) (since : Nat) : Prop where
  nodup : r.tables.Nodup
  bound : ∃ e ≤ since, ∃ x, r.generation % word = x % word ∧
    x ≤ totalAt sh.marks (generationKeys r.tables) e

def CollapsedBefore (sh : Shared Q T F D) (since : Nat) : Prop :=
  ∀ filler op prep r, .stored filler op prep r ∈ sh.log → prep.keyedVerbatim = false →
    SnappedBefore sh r since

structure Collapsed (s : State Q T F D) : Prop where
  flag : s.shared.heliosdbBackend = false
  quiet : ∀ tid, s.threads tid ≠ .note ∧ (s.threads tid).verbatimL2 = none
  old : CollapsedBefore s.shared s.shared.clock

/-- The flag was set at the instant `since`. -/
structure Verbatim (s : State Q T F D) (since : Nat) : Prop where
  flag : s.shared.heliosdbBackend = true
  past : since ≤ s.shared.clock
  old : CollapsedBefore s.shared since
  flushed : (∃ tid, s.threads tid = .note) ∨ Flushed s.shared since s.shared.clock
  late : ∀ tid rd, (s.threads tid).verbatimL2 = some rd →
    Flushed s.shared since s.shared.clock ∧ ∀ r ∈ rd, Flushed s.shared since r.began

def Switched (s : State Q T F D) : Prop := Collapsed s ∨ ∃ since, Verbatim s since

section Effects

variable {sh sh' : Shared Q T F D} {since : Nat}

theorem Flushed.mono (hl : Extends sh sh') {u u' : Nat} (hle : u ≤ u') (h : Flushed sh since u) :
    Flushed sh' since u' := by
  obtain ⟨m, hm, hk, ha, hb⟩ := h
  exact ⟨m, hl.marks m hm, hk, ha, hb.trans_le hle⟩

theorem SnappedBefore.mono (hl : Extends sh sh') (hp : since ≤ sh.clock) {r : CachedResult T D}
    (h : SnappedBefore sh r since) : SnappedBefore sh' r since := by
  obtain ⟨e, hle, x, hs, hb⟩ := h.bound
  refine ⟨h.nodup, e, hle, x, hs, ?_⟩
  rwa [hl.past _ _ (hle.trans hp)]

variable [DecidableEq Q] {e : Event Q T F D}

theorem mem_log_apply (sh : Shared Q T F D) (effect : Effect Q T F D)
    (hm : e ∈ (sh.apply effect).log) : e ∈ sh.log ∨ effect = .record e := by
  rcases effect with (_ | _) | _ | _ | _ | _ | _ | _ | _ | event <;> try exact .inl hm
  obtain rfl | hm := mem_cons.mp hm
  · exact .inr rfl
  · exact .inl hm

theorem mem_log_effects (sh : Shared Q T F D) (es : List (Effect Q T F D))
    (hm : e ∈ (es.foldl Shared.apply sh).tick.log) : e ∈ sh.log ∨ .record e ∈ es := by
  induction es generalizing sh with
  | nil => exact .inl hm
  | cons effect es ih =>
    obtain hm | hm := ih (sh.apply effect) hm
    · obtain hm | rfl := mem_log_apply sh effect hm
      · exact .inl hm
      · exact .inr mem_cons_self
    · exact .inr (mem_cons_of_mem _ hm)

variable {es : List (Effect Q T F D)}

theorem flag_effects (sh : Shared Q T F D) (hn : Effect.setFlag ∉ es) :
    (es.foldl Shared.apply sh).tick.heliosdbBackend = sh.heliosdbBackend := by
  induction es generalizing sh with
  | nil => rfl
  | cons effect es ih =>
    have hf : effect ≠ .setFlag := fun hs => hn (hs ▸ mem_cons_self)
    rw [foldl_cons, ih (sh.apply effect) fun hm => hn (mem_cons_of_mem _ hm)]
    rcases effect with (_ | _) | _ | _ | _ | _ | _ | _ | _ | _
    all_goals first | rfl | exact absurd rfl hf

theorem CollapsedBefore.effects (ho : CollapsedBefore sh since) (hp : since ≤ sh.clock)
    (hs : ∀ filler op prep r, .record (.stored filler op prep r) ∈ es → prep.keyedVerbatim = false →
      SnappedBefore sh r since) : CollapsedBefore (es.foldl Shared.apply sh).tick since := by
  intro filler op prep r hm hc
  obtain hm | hm := mem_log_effects sh es hm
  · exact (ho filler op prep r hm hc).mono (Extends.effects sh es) hp
  · exact (hs filler op prep r hm hc).mono (Extends.effects sh es) hp

omit [DecidableEq Q] in
theorem CollapsedBefore.later (ho : CollapsedBefore sh since) {since' : Nat}
    (hle : since ≤ since') :
    CollapsedBefore sh since' := by
  intro filler op prep r hm hc
  obtain ⟨hn, e, hb, hbo⟩ := ho filler op prep r hm hc
  exact ⟨hn, e, hb.trans hle, hbo⟩

end Effects

/-! ## One step -/

section Steps

variable [DecidableEq Q] {cfg : Config Q T F D} {s s' : State Q T F D} {since : Nat}

theorem clock_effects (sh : Shared Q T F D) (es : List (Effect Q T F D)) :
    (es.foldl Shared.apply sh).tick.clock = sh.clock + 1 := by
  induction es generalizing sh with
  | nil => rfl
  | cons e es ih => rw [foldl_cons, ih, Shared.Inv.clock_apply]

variable {es : List (Effect Q T F D)}

theorem mem_marks_effects (sh : Shared Q T F D) (hm : .mark none ∈ es) :
    (none, sh.clock) ∈ (es.foldl Shared.apply sh).tick.marks := by
  induction es generalizing sh with
  | nil => cases hm
  | cons e es ih =>
    obtain rfl | hm := mem_cons.mp hm
    · exact (Extends.effects (sh.apply (.mark none)) es).marks _ mem_cons_self
    · have hl := ih (sh.apply e) hm
      rwa [Shared.Inv.clock_apply] at hl

def StoresOld (sh : Shared Q T F D) (es : List (Effect Q T F D)) : Prop :=
  ∀ filler op prep r, .record (.stored filler op prep r) ∈ es → prep.keyedVerbatim = false →
    sh.heliosdbBackend = false ∧ SnappedBefore sh r sh.clock

variable {threads : Nat → Thread Q T F D}

theorem Collapsed.effects (h : Collapsed s) (hf : Effect.setFlag ∉ es)
    (hs : StoresOld s.shared es)
    (hq : ∀ tid, threads tid ≠ .note ∧ (threads tid).verbatimL2 = none) :
    Collapsed ⟨(es.foldl Shared.apply s.shared).tick, threads⟩ where
  flag := (flag_effects s.shared hf).trans h.flag
  quiet := hq
  old := by
    have ho : CollapsedBefore (es.foldl Shared.apply s.shared).tick s.shared.clock :=
      h.old.effects le_rfl fun filler op prep r hm hc => (hs filler op prep r hm hc).2
    refine ho.later ?_
    rw [clock_effects]
    exact Nat.le_succ _

theorem Verbatim.effects (h : Verbatim s since) (hfl : Effect.setFlag ∉ es)
    (hs : StoresOld s.shared es)
    (hn : ∀ tid, s.threads tid = .note → threads tid = .note ∨ .mark none ∈ es)
    (hla : ∀ tid rd, (threads tid).verbatimL2 = some rd → Flushed s.shared since s.shared.clock ∧
      ∀ r ∈ rd, Flushed s.shared since r.began) :
    Verbatim ⟨(es.foldl Shared.apply s.shared).tick, threads⟩ since := by
  have hl := Extends.effects s.shared es
  refine ⟨(flag_effects s.shared hfl).trans h.flag, h.past.trans hl.clock, ?_, ?_, ?_⟩
  · refine h.old.effects h.past fun filler op prep r hm hc => ?_
    have hu := (hs filler op prep r hm hc).1
    rw [h.flag] at hu
    cases hu
  · obtain ⟨tid, hh⟩ | hf := h.flushed
    · obtain hst | hma := hn tid hh
      · exact .inl ⟨tid, hst⟩
      · refine .inr ⟨(none, s.shared.clock), mem_marks_effects s.shared hma, rfl, h.past, ?_⟩
        rw [clock_effects]
        exact Nat.lt_succ_self _
    · exact .inr (hf.mono hl hl.clock)
  · intro tid rd ha'
    obtain ⟨hf, hr⟩ := hla tid rd ha'
    exact ⟨hf.mono hl hl.clock, fun r hm => (hr r hm).mono hl le_rfl⟩

/-- A step that sets no flag, stores under a collapsed key only what was read before the
flag, and does not begin a `note_heliosdb_backend`. -/
structure StepKeeps (sh : Shared Q T F D) (next : Thread Q T F D × List (Effect Q T F D)) :
    Prop where
  flag : Effect.setFlag ∉ next.2
  stores : StoresOld sh next.2
  note : next.1 ≠ .note

variable {sh : Shared Q T F D} {next : Thread Q T F D × List (Effect Q T F D)}

omit [DecidableEq Q] in
theorem StepKeeps.of_plain
    (hp : next.2.all Effect.plain) (hn : next.1 ≠ .note) : StepKeeps sh next := by
  refine ⟨fun hm => ?_, fun filler op prep r hm => ?_, hn⟩
  · cases List.all_eq_true.mp hp _ hm
  · cases List.all_eq_true.mp hp _ hm

variable {tid : Nat}

omit [DecidableEq Q] in
theorem storeStep_keeps {op : Op Q} {prep : QueryPrep T F} {pc : Store T F D}
    (hm : Missed sh tid op prep) (hok : pc.Ok sh prep) :
    StepKeeps sh (storeStep cfg sh tid op prep pc) := by
  cases pc with
  | mode data generation =>
    simp only [storeStep]
    split
    case isTrue hsa =>
      refine ⟨by simp, ?_, by rintro ⟨⟩⟩
      intro filler op' prep' r hme hc
      cases mem_singleton.mp hme
      obtain ⟨g, e, -, hs⟩ := hm
      cases Option.some.inj (hs.recorded.symm.trans hok)
      exact ⟨hsa.trans hc, hs.nodup, e, hs.past, hs.bound⟩
    case isFalse => exact .of_plain rfl (by rintro ⟨⟩)
  | _ =>
    simp only [storeStep]
    repeat' split
    all_goals exact .of_plain rfl (by rintro ⟨⟩)

/-- A task is at L2 with a verbatim key because it was, or because it has just found the
flag set. -/
def Comes (s : State Q T F D) (a : Action Q T D) (tid : Nat) (th : Thread Q T F D) : Prop :=
  ∀ rd, th.verbatimL2 = some rd →
    (s.shared.heliosdbBackend = true ∧
    (∃ op ch, a = .advance tid ch ∧ s.threads tid = .lookup op .keyMode) ∧
      rd = none) ∨
      ∃ rd₀, (s.threads tid).verbatimL2 = some rd₀ ∧
        ∀ r ∈ rd, (∃ r₀ ∈ rd₀, r₀.began = r.began) ∨ r.began = s.shared.clock

variable {a : Action Q T D} {th : Thread Q T F D}

theorem Collapsed.commit (h : Collapsed s)
    (hk : StepKeeps s.shared (th, es)) (hc : Comes s a tid th) :
    Collapsed (s.commit tid th es) := by
  refine h.effects hk.flag hk.stores fun tid' => ?_
  by_cases hs : tid' = tid
  · subst hs
    rw [update_self]
    refine ⟨hk.note, ?_⟩
    cases hv : th.verbatimL2 with
    | none => rfl
    | some rd =>
      obtain ⟨hf, -⟩ | ⟨rd₀, hb, -⟩ := hc rd hv
      · rw [h.flag] at hf
        cases hf
      · rw [(h.quiet tid').2] at hb
        cases hb
  · rw [update_of_ne hs]
    exact h.quiet tid'

theorem Verbatim.commit (h : Verbatim s since) (hse : KeysSettled s a)
    (hk : StepKeeps s.shared (th, es))
    (hn : s.threads tid = .note → .mark none ∈ es) (hc : Comes s a tid th) :
    Verbatim (s.commit tid th es) since := by
  refine h.effects hk.flag hk.stores (fun tid' hh => ?_) fun tid' rd hv => ?_
  · by_cases hs : tid' = tid
    · subst hs
      exact .inr (hn hh)
    · rw [update_of_ne hs]
      exact .inl hh
  · by_cases hs : tid' = tid
    · subst hs
      rw [update_self] at hv
      obtain ⟨-, ⟨op, ch, rfl, ha⟩, rfl⟩ | ⟨rd₀, hb, hbe⟩ := hc rd hv
      · have hf := h.flushed.resolve_left fun ⟨other, hh⟩ => hse op ha other hh
        exact ⟨hf, by rintro r ⟨⟩⟩
      · obtain ⟨hf, hr⟩ := h.late tid' rd₀ hb
        refine ⟨hf, fun r hm => ?_⟩
        obtain ⟨r₀, hm₀, hs⟩ | hno := hbe r hm
        · exact hs ▸ hr r₀ hm₀
        · exact hno ▸ hf
    · rw [update_of_ne hs] at hv
      exact h.late tid' rd hv

/-- What a step can do: a task goes on, the flag is set, or the cache loses something. -/
inductive Moves (s : State Q T F D) (a : Action Q T D) : State Q T F D → Prop
  | commit {tid : Nat} {th : Thread Q T F D}
      {es : List (Effect Q T F D)} (hk : StepKeeps s.shared (th, es))
      (hn : s.threads tid = .note → .mark none ∈ es) (hc : Comes s a tid th) :
        Moves s a (s.commit tid th es)
  | setFlag (tid : Nat) (hu : s.shared.heliosdbBackend = false) :
      Moves s a (s.commit tid .note [.setFlag])
  | disturb {es : List (Effect Q T F D)} (hp : es.all Effect.plain = true) :
      Moves s a (s.disturb es)

omit [DecidableEq T] [DecidableEq Q] in
theorem Comes.of_none (hn : th.verbatimL2 = none) :
    Comes s a tid th := by
  intro rd hv
  rw [hn] at hv
  cases hv

theorem Moves.idle {prep : Option (Op Q × QueryPrep T F)}
    (hi : s.idle? tid = some prep) (hn : th ≠ .note) (hv : th.verbatimL2 = none) :
    Moves s a (s.commit tid th []) :=
  .commit (.of_plain rfl hn) (by rw [State.idle?_eq_some hi]; rintro ⟨⟩) (.of_none hv)

theorem Moves.advance (hi : s.Inv cfg) {ch : Choice}
    (hm : threadStep cfg s.shared tid ch (s.threads tid) = some next) :
    Moves s (.advance tid ch : Action Q T D) (s.commit tid next.1 next.2) := by
  have hok := hi.threads tid
  cases hh : s.threads tid with
  | idle prep =>
    rw [hh] at hm
    cases hm
  | lookup op pc =>
    rw [hh] at hm
    cases hm
    obtain ⟨hp, hn⟩ : (lookupStep cfg s.shared tid op ch pc).2.all Effect.plain ∧
      (lookupStep cfg s.shared tid op ch pc).1 ≠ .note := lookupStep_plain pc
    refine .commit (.of_plain hp hn) (by rw [hh]; rintro ⟨⟩) fun rd hv => ?_
    obtain ⟨rfl, hf, hno⟩ | hb := lookupStep_verbatimL2 hv
    · exact .inl ⟨hf, ⟨op, ch, rfl, hh⟩, hno⟩
    · rw [hh]
      exact .inr hb
  | store op prep pc =>
    rw [hh] at hm hok
    cases hm
    exact .commit (storeStep_keeps hok.1 hok.2) (by rw [hh]; rintro ⟨⟩)
      (.of_none (storeStep_verbatimL2 pc))
  | mark began tables todo absent =>
    rw [hh] at hm
    cases hm
    obtain ⟨hp, hn, hv⟩ : (markStep s.shared began tables todo absent).2.all Effect.plain ∧
      (markStep s.shared began tables todo absent).1 ≠ .note ∧
      (markStep s.shared began tables todo absent).1.verbatimL2 = none := markStep_plain todo absent
    exact .commit (.of_plain hp hn) (by rw [hh]; rintro ⟨⟩) (.of_none hv)
  | note =>
    rw [hh] at hm
    cases hm
    exact .commit (.of_plain rfl (by rintro ⟨⟩)) (fun _ => mem_cons_self) (.of_none rfl)

theorem step_moves (hin : s.Inv cfg) (hm : step cfg s a = some s') : Moves s a s' := by
  cases a with
  | lookup tid op =>
    obtain ⟨prep, hi, rfl⟩ := map_eq_some_iff.mp hm
    refine .idle hi ?_ ?_
    all_goals
      unfold beginLookup
      split
    all_goals first | rfl | rintro ⟨⟩
  | store tid data =>
    simp only [step] at hm
    split at hm
    next op prep hi =>
      cases hm
      refine .idle hi ?_ ?_
      all_goals
        unfold beginStore
        split
      all_goals first | rfl | rintro ⟨⟩
    · cases hm
  | markWritten tid tables =>
    obtain ⟨prep, hi, rfl⟩ := map_eq_some_iff.mp hm
    exact .idle hi (by rintro ⟨⟩) rfl
  | noteHeliosdbBackend tid =>
    obtain ⟨prep, hi, rfl⟩ := map_eq_some_iff.mp hm
    split
    · exact .idle hi (by rintro ⟨⟩) rfl
    next hu => exact .setFlag tid (by simpa using hu)
  | advance tid ch =>
    obtain ⟨next, hw, rfl⟩ := map_eq_some_iff.mp hm
    exact .advance hin hw
  | invalidateAll | evictL1 | evictL2 | spill | evictMmap | evictL3 =>
    cases hm
    exact .disturb rfl

theorem Collapsed.setFlag (h : Collapsed s) (tid : Nat) :
    Verbatim (s.commit tid .note [.setFlag]) s.shared.clock where
  flag := rfl
  past := Nat.le_succ _
  old := h.old.effects le_rfl fun filler op prep r hm => by cases mem_singleton.mp hm
  flushed := .inl ⟨tid, update_self _ _ _⟩
  late tid' rd hv := by
    by_cases hs : tid' = tid
    · subst hs
      simp only [State.commit, update_self] at hv
      cases hv
    · simp only [State.commit, update_of_ne hs, (h.quiet tid').2] at hv
      cases hv

theorem Switched.moves (h : Switched s) (hs : KeysSettled s a) (hm : Moves s a s') :
    Switched s' := by
  cases hm with
  | commit hk hn hc =>
    obtain hb | ⟨since, ha⟩ := h
    · exact .inl (hb.commit hk hc)
    · exact .inr ⟨since, ha.commit hs hk hn hc⟩
  | setFlag tid hu =>
    obtain hb | ⟨since, ha⟩ := h
    · exact .inr ⟨_, hb.setFlag tid⟩
    · rw [ha.flag] at hu
      cases hu
  | disturb hp =>
    have hk : StepKeeps s.shared (.idle none, _) := .of_plain hp (by rintro ⟨⟩)
    obtain hb | ⟨since, ha⟩ := h
    · exact .inl (hb.effects hk.flag hk.stores hb.quiet)
    · exact .inr ⟨since, ha.effects hk.flag hk.stores (fun _ hh => .inl hh) ha.late⟩

end Steps

/-! ## Whole runs -/

section Runs

omit [DecidableEq T]

/-- A lookup with a verbatim key gets `r` from L2: its next step is the one of a hit. -/
def ServedVerbatim (cfg : Config Q T F D) (s : State Q T F D) (op : Op Q) (r : CachedResult T D) :
    Prop :=
  ∃ tid rd ch began, s.threads tid = .lookup op (.l2Check true r rd) ∧
    (lookupStep cfg s.shared tid op ch (.l2Check true r rd)).1 = .lookup op (.l1Promote r began)

theorem ServedVerbatim.checked {cfg : Config Q T F D} {s : State Q T F D} {op : Op Q}
    {r : CachedResult T D} (hs : ServedVerbatim cfg s op r) :
    ∃ tid rd rd', s.threads tid = .lookup op (.l2Check true r rd) ∧ completed rd = some rd' ∧
      r.generation = rd'.sum := by
  obtain ⟨tid, rd, ch, began, hh, hn⟩ := hs
  simp only [lookupStep] at hn
  split at hn
  case h_1 => cases hn
  case h_2 rd' hd =>
    split at hn
    case isTrue hsa => exact ⟨tid, rd, rd', hh, hd, hsa⟩
    case isFalse => cases hn

variable [DecidableEq Q] [DecidableEq T] {cfg : Config Q T F D} {s : State Q T F D}

/-- In every run with fewer increments than a counter can hold, in which no lookup loads
the flag between the two steps of a `note_heliosdb_backend`, what a lookup with a verbatim
key gets from L2 was stored under a verbatim key. -/
theorem verbatim_served_verbatim {acts : List (Action Q T D)}
    (hran : Runs.run (step cfg) .init acts = some s)
    (hnoWrap : s.shared.marks.length < word)
    (hsettled : Runs.Along (step cfg) KeysSettled .init acts)
    {op : Op Q} {r : CachedResult T D} (hserved : ServedVerbatim cfg s op r) :
    ∀ filler op' prep, .stored filler op' prep r ∈ s.shared.log → prep.keyedVerbatim = true := by
  have hinit : Switched (.init : State Q T F D) :=
    .inl ⟨rfl, fun _ => ⟨by rintro ⟨⟩, rfl⟩, fun _ _ _ _ hmem => absurd hmem not_mem_nil⟩
  obtain ⟨hinv, hswitched⟩ : s.Inv cfg ∧ Switched s :=
    Runs.run_invariant_along (P := fun s => s.Inv cfg ∧ Switched s)
      (fun _ a _ h hsettled hmoved =>
        ⟨step_inv a h.1 hmoved, h.2.moves hsettled (step_moves h.1 hmoved)⟩)
      ⟨State.Inv.init, hinit⟩ hsettled hran
  intro filler op' prep hstored
  obtain ⟨tid, rd, rd', hhere, hdone, hsame⟩ := hserved.checked
  have hverbatim : (s.threads tid).verbatimL2 = some rd := by rw [hhere]; rfl
  by_contra hcollapsed
  obtain hbefore | ⟨since, hafter⟩ := hswitched
  · rw [(hbefore.quiet tid).2] at hverbatim
    cases hverbatim
  · -- The entry was snapped before the flag was set, the check began after the entries were retired.
    have hok := hinv.threads tid
    rw [hhere] at hok
    obtain ⟨y, checkEnd, -, -, hagree, hlow, hhigh⟩ := checked_of_completed hok.2 hdone hsame
    obtain ⟨hnodup, e, hle, x, hsnapped, hbound⟩ :=
      hafter.old filler op' prep r hstored (by simpa using hcollapsed)
    obtain ⟨m, hmem, hkey, hsince_le, hearly⟩ :=
      (hafter.late tid rd hverbatim).2 rd' (completed_eq_some hdone).1
    have hkeys : (generationKeys r.tables).Nodup :=
      nodup_cons.mpr ⟨by simp, hnodup.map fun _ _ => Option.some.inj⟩
    have hbefore :=
      before_of_sums_agree hkeys hnoWrap (hsnapped.symm.trans hagree) hbound hlow hhigh hmem
      (by rw [hkey]; exact mem_cons_self) hearly
    omega

theorem settled_of_flag (hi : s.Inv cfg) (hf : s.shared.heliosdbBackend)
    (hq : ∀ tid, s.threads tid ≠ .note)
    (acts : List (Action Q T D)) : Runs.Along (step cfg) KeysSettled s acts := by
  refine Runs.along_of_invariant
    (I := fun s => s.Inv cfg ∧ s.shared.heliosdbBackend ∧ ∀ tid, s.threads tid ≠ .note) ?_ ?_
    ⟨hi, hf, hq⟩ acts
  · rintro s a s' ⟨hi, hf, hq⟩ hm
    refine ⟨step_inv a hi hm, ?_⟩
    cases step_moves hi hm with
    | commit hk _ _ =>
      refine ⟨(flag_effects s.shared hk.flag).trans hf, fun tid' => ?_⟩
      simp only [State.commit, update_apply]
      split
      · exact hk.note
      · exact hq tid'
    | setFlag tid hu =>
      rw [hf] at hu
      cases hu
    | disturb hp =>
      have hk : StepKeeps s.shared (.idle none, _) := .of_plain hp (by rintro ⟨⟩)
      exact ⟨(flag_effects s.shared hk.flag).trans hf, hq⟩
  · rintro s a ⟨-, -, hq⟩
    cases a with
    | advance tid ch => exact fun _ _ => hq
    | _ => trivial

end Runs

end Modes

/-! ## Two texts -/

section Sample

inductive Spacing
  | one
  | two
deriving DecidableEq

/-- L2 only.  A collapsed key forgets the second blank, and is then the verbatim key of the
text with one. -/
def spacingConfig : Config Spacing Nat Unit Nat where
  l1Enabled := false
  l2Enabled := true
  l3Enabled := false
  canonicalMatch := false
  hintSkip _ := false
  hintSemantic _ := false
  tables _ _ := []
  tables_nodup _ _ := nodup_nil
  keyHash q verbatim _ := if verbatim = true ∧ q = .two then 1 else 0
  semanticForm _ _ := none
  sameShape _ _ := true
  sameSelect _ _ := true
  approximable _ := false
  fits _ := true

def spacingOp (q : Spacing) : Op Spacing := ⟨q, ⟨"db", none, none, none⟩⟩

def advances (n tid : Nat) : List (Action Spacing Nat Nat) :=
  List.replicate n (.advance tid ⟨true, true, none⟩)

def missAndStore (tid : Nat) (q : Spacing) : List (Action Spacing Nat Nat) :=
  .lookup tid (spacingOp q) :: advances 6 tid ++ .store tid 42 :: advances 6 tid

def switchHit : List (Action Spacing Nat Nat) :=
  missAndStore 1 .two ++ .noteHeliosdbBackend 3 :: .lookup 2 (spacingOp .one) :: advances 4 2

/-- The lookup of the one text is then served what the other stored under its collapsed key. -/
theorem not_verbatim_served_verbatim :
    ∃ s op r filler op' prep, Runs.run (step spacingConfig) .init switchHit = some s ∧
      ServedVerbatim spacingConfig s op r ∧ .stored filler op' prep r ∈ s.shared.log ∧
      prep.keyedVerbatim = false ∧ op'.query ≠ op.query := by
  refine ⟨_, spacingOp .one, ⟨42, [], 0⟩, 1, spacingOp .two,
    ⟨false, false, [], 0, false, some 0, none⟩, rfl, ?_, ?_, rfl, ?_⟩
  · exact ⟨2, _, ⟨true, true, none⟩, _, rfl, rfl⟩
  · exact by decide
  · decide

def switchedHit : List (Action Spacing Nat Nat) :=
  .noteHeliosdbBackend 3 :: .advance 3 ⟨true, true, none⟩ ::
    (missAndStore 1 .one ++ .lookup 2 (spacingOp .one) :: advances 4 2)

theorem switchedHit_settled : Runs.Along (step spacingConfig) KeysSettled .init switchedHit := by
  refine ⟨trivial, fun s₁ hf => ?_⟩
  have hi₁ := step_inv _ State.Inv.init hf
  cases hf
  refine ⟨by rintro op ⟨⟩, fun s₂ hse => ?_⟩
  have hi₂ := step_inv _ hi₁ hse
  cases hse
  refine settled_of_flag hi₂ rfl (fun tid => ?_) _
  show update (update (fun _ => Thread.idle none) 3 Thread.note) 3 (Thread.idle none) tid ≠
    Thread.note
  by_cases hs : tid = 3
  · subst hs
    rintro ⟨⟩
  · rw [update_of_ne hs, update_of_ne hs]
    rintro ⟨⟩

theorem verbatim_served_verbatim_own :
    ∃ s r, Runs.run (step spacingConfig) .init switchedHit = some s ∧ ServedVerbatim spacingConfig s
      (spacingOp .one) r ∧
      ∀ filler op' prep, .stored filler op' prep r ∈ s.shared.log → prep.keyedVerbatim = true := by
  obtain ⟨s, hran⟩ : ∃ s, Runs.run (step spacingConfig) .init switchedHit = some s := ⟨_, rfl⟩
  have hserved : ServedVerbatim spacingConfig s (spacingOp .one) ⟨42, [], 1⟩ := by
    cases hran
    exact ⟨2, _, ⟨true, true, none⟩, _, rfl, rfl⟩
  have hfew : s.shared.marks.length < word := by
    cases hran
    decide
  exact ⟨s, _, hran, hserved, verbatim_served_verbatim hran hfew switchedHit_settled hserved⟩

end Sample

end HeliosProxy.Cache
