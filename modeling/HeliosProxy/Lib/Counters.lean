import Mathlib

/-!
# Monotone counters and sums of them read one at a time

Counters are only ever incremented.  The history of a family of counters is
the list of its increments, each a key and the instant of the increment, and
the value of a counter at an instant is the number of earlier increments of
its key.

A reader loads the counters of a list of keys one after another and adds them
up while increments go on.  The sum it ends with belongs to no single instant,
but it lies between the sum at the instant of its first load and the sum at
the instant of its last one (`Reading.Ok`).  Two such sums that agree
therefore leave no room for an increment between the last load of the one and
the first load of the other (`before_of_sums_agree`).
-/

namespace HeliosProxy.Counters

variable {κ : Type*} [DecidableEq κ]

/-- The value of counter `k` at instant `τ`: its increments before `τ`. -/
def valueAt (marks : List (κ × Nat)) (k : κ) (τ : Nat) : Nat :=
  marks.countP fun m => m.1 = k ∧ m.2 < τ

/-- The sum of the counters of `ks` at instant `τ`. -/
def totalAt (marks : List (κ × Nat)) (ks : List κ) (τ : Nat) : Nat :=
  (ks.map fun k => valueAt marks k τ).sum

variable (marks : List (κ × Nat))

@[simp] theorem totalAt_nil (τ : Nat) : totalAt marks [] τ = 0 := rfl

variable (k : κ)

@[simp] theorem totalAt_cons (ks : List κ) (τ : Nat) :
    totalAt marks (k :: ks) τ = valueAt marks k τ + totalAt marks ks τ := by
  simp [totalAt]

@[simp] theorem totalAt_append (ks ks' : List κ) (τ : Nat) :
    totalAt marks (ks ++ ks') τ = totalAt marks ks τ + totalAt marks ks' τ := by
  simp [totalAt]

/-- The increments of `k` in the interval from `τ` to before `τ'`. -/
def between (marks : List (κ × Nat)) (k : κ) (τ τ' : Nat) : Nat :=
  marks.countP fun m => m.1 = k ∧ τ ≤ m.2 ∧ m.2 < τ'

variable {τ τ' : Nat}

theorem valueAt_add_between (h : τ ≤ τ') :
    valueAt marks k τ' = valueAt marks k τ + between marks k τ τ' := by
  unfold valueAt between
  induction marks with
  | nil => rfl
  | cons m marks ih =>
    simp only [List.countP_cons, decide_eq_true_eq]
    by_cases hk : m.1 = k
    · simp only [hk, true_and]
      split <;> split <;> split <;> omega
    · simp only [hk, false_and, if_false]
      omega

theorem valueAt_mono (h : τ ≤ τ') : valueAt marks k τ ≤ valueAt marks k τ' := by
  rw [valueAt_add_between marks k h]
  exact Nat.le_add_right _ _

theorem totalAt_mono (ks : List κ) (h : τ ≤ τ') : totalAt marks ks τ ≤ totalAt marks ks τ' := by
  induction ks with
  | nil => exact le_rfl
  | cons k ks ih =>
    exact add_le_add (valueAt_mono marks k h) ih

variable {m : κ × Nat}

theorem valueAt_cons_of_le (h : τ ≤ m.2) : valueAt (m :: marks) k τ = valueAt marks k τ := by
  unfold valueAt
  rw [List.countP_cons_of_neg]
  simp only [decide_eq_true_eq]
  omega

theorem totalAt_cons_of_le (ks : List κ)
    (h : τ ≤ m.2) : totalAt (m :: marks) ks τ = totalAt marks ks τ := by
  simp only [totalAt, valueAt_cons_of_le marks _ h]

variable {now : Nat}

theorem valueAt_of_past
    (hp : ∀ m ∈ marks, m.2 < now) (h : now ≤ τ) : valueAt marks k τ = valueAt marks k now := by
  have hn : between marks k now τ = 0 := by
    refine List.countP_eq_zero.mpr fun m hm => ?_
    have := hp m hm
    simp only [decide_eq_true_eq]
    omega
  rw [valueAt_add_between marks k h, hn, add_zero]

theorem valueAt_cons_of_lt (h : m.2 < τ) :
    valueAt (m :: marks) k τ = if m.1 = k then valueAt marks k τ + 1 else valueAt marks k τ := by
  unfold valueAt
  by_cases hk : m.1 = k <;> simp [hk, h]

variable {ks : List κ}

theorem totalAt_le_length (hn : ks.Nodup) (τ : Nat) : totalAt marks ks τ ≤ marks.length := by
  induction marks with
  | nil => simp [totalAt, valueAt]
  | cons m marks ih =>
    have hs : totalAt (m :: marks) ks τ ≤ totalAt marks ks τ + ks.count m.1 := by
      clear ih hn
      induction ks with
      | nil => simp
      | cons k ks ih =>
        have hone : valueAt (m :: marks) k τ ≤ valueAt marks k τ + if m.1 = k then 1 else 0 := by
          unfold valueAt
          rw [List.countP_cons]
          split <;> split <;> simp_all
        rw [totalAt_cons, totalAt_cons, List.count_cons]
        simp only [beq_iff_eq, eq_comm (a := k)]
        omega
    have ho : ks.count m.1 ≤ 1 := List.nodup_iff_count_le_one.mp hn m.1
    rw [List.length_cons]
    omega

variable {k : κ}

/-- Counters that sum up to no more at `τ'` than at the earlier `τ` have not
moved in between. -/
theorem valueAt_eq_of_totalAt_le (h : τ ≤ τ')
    (hle : totalAt marks ks τ' ≤ totalAt marks ks τ) (hk : k ∈ ks) :
    valueAt marks k τ' = valueAt marks k τ := by
  induction ks with
  | nil => cases hk
  | cons k' ks ih =>
    rw [totalAt_cons, totalAt_cons] at hle
    have hhead := valueAt_mono marks k' h
    have htail := totalAt_mono marks ks h
    rcases List.mem_cons.mp hk with rfl | hk
    · omega
    · exact ih (by omega) hk

variable {marks : List (κ × Nat)}

theorem before_of_valueAt_eq
    (hs : valueAt marks k τ' = valueAt marks k τ) (hm : m ∈ marks)
    (hk : m.1 = k) (hlt : m.2 < τ') : m.2 < τ := by
  by_contra hl
  have hn : between marks k τ τ' = 0 := by
    have hle : τ ≤ τ' := by omega
    have := valueAt_add_between marks k hle
    omega
  have := List.countP_eq_zero.mp hn m hm
  simp only [decide_eq_true_eq] at this
  exact this ⟨hk, by omega, hlt⟩

/-! ## Sums read one counter at a time -/

/-- A sum of counters in the making: the instants of its first and of its
latest load, the sum so far, kept below a word size, and the keys to come. -/
structure Reading (κ : Type*) where
  began : Nat
  ended : Nat
  sum : Nat
  todo : List κ

def Reading.start (word now value : Nat) (todo : List κ) : Reading κ :=
  ⟨now, now, value % word, todo⟩

/-- The load of the next counter, added to the sum with wrap-around at `word`. -/
def Reading.load (word now value : Nat) (rest : List κ) (r : Reading κ) : Reading κ :=
  { r with ended := now, sum := (r.sum + value) % word, todo := rest }

/-- What a reading of the counters `ks` knows of its sum: up to wrap-around it
is a number between the sums of the counters it has loaded at its first and at
its latest load. -/
structure Reading.Ok (word : Nat) (marks : List (κ × Nat)) (ks : List κ) (r : Reading κ) :
    Prop where
  ordered : r.began ≤ r.ended
  sums : ∃ done x, ks = done ++ r.todo ∧ r.sum % word = x % word ∧
    totalAt marks done r.began ≤ x ∧ x ≤ totalAt marks done r.ended

namespace Reading.Ok

variable {word : Nat} {marks : List (κ × Nat)} {ks : List κ} {r : Reading κ}

theorem start {todo : List κ} :
    (Reading.start word now (valueAt marks k now) todo).Ok word marks (k :: todo) where
  ordered := le_rfl
  sums := ⟨[k], valueAt marks k now, rfl, Nat.mod_mod _ _, by simp [Reading.start],
    by simp [Reading.start]⟩

theorem load (h : r.Ok word marks ks) {rest : List κ} (ht : r.todo = k :: rest)
    (hl : r.ended ≤ now) :
    (r.load word now (valueAt marks k now) rest).Ok word marks ks := by
  obtain ⟨done, x, hks, hsum, hlow, hhigh⟩ := h.sums
  have hbegan := h.ordered
  refine ⟨hbegan.trans hl, done ++ [k], x + valueAt marks k now, ?_, ?_, ?_, ?_⟩
  · simp [Reading.load, hks, ht]
  · simp only [Reading.load, Nat.mod_mod]
    rw [Nat.add_mod, hsum, ← Nat.add_mod]
  · have := valueAt_mono marks k (hbegan.trans hl)
    simp only [Reading.load, totalAt_append, totalAt_cons, totalAt_nil]
    omega
  · have := totalAt_mono marks done hl
    simp only [Reading.load, totalAt_append, totalAt_cons]
    omega

theorem of_same_past (h : r.Ok word marks ks) {marks' : List (κ × Nat)}
    (hs : ∀ ks τ, τ ≤ r.ended → totalAt marks' ks τ = totalAt marks ks τ) :
    r.Ok word marks' ks := by
  obtain ⟨done, x, hks, hsum, hlow, hhigh⟩ := h.sums
  refine ⟨h.ordered, done, x, hks, hsum, ?_, ?_⟩
  · rwa [hs done r.began h.ordered]
  · rwa [hs done r.ended le_rfl]

theorem of_done (h : r.Ok word marks ks) (hd : r.todo = []) :
    ∃ x, r.sum % word = x % word ∧ totalAt marks ks r.began ≤ x ∧ x ≤ totalAt marks ks r.ended := by
  obtain ⟨all, x, hks, hsum, hlow, hhigh⟩ := h.sums
  rw [hd, List.append_nil] at hks
  subst hks
  exact ⟨x, hsum, hlow, hhigh⟩

end Reading.Ok

/-- **Agreeing sums.**  Take two readings of the same distinct counters whose
sums agree, with fewer increments in all than the word size.  Every increment
of one of the counters before the first load of the one reading then came
before the last load of the other. -/
theorem before_of_sums_agree {word : Nat}
    (hn : ks.Nodup) (hf : marks.length < word) {x y snapEnd checkBegan checkEnd : Nat}
    (ha : x % word = y % word) (hs : x ≤ totalAt marks ks snapEnd)
    (hc : totalAt marks ks checkBegan ≤ y) (hb : y ≤ totalAt marks ks checkEnd)
    (hm : m ∈ marks) (hk : m.1 ∈ ks) (he : m.2 < checkBegan) :
    m.2 < snapEnd := by
  rcases lt_or_ge m.2 snapEnd with hd | hl
  · exact hd
  have hx := hs.trans (totalAt_le_length marks hn snapEnd)
  have hy := hb.trans (totalAt_le_length marks hn checkEnd)
  rw [Nat.mod_eq_of_lt (by omega), Nat.mod_eq_of_lt (by omega)] at ha
  have hle : snapEnd ≤ checkBegan := by omega
  have hsa := valueAt_eq_of_totalAt_le marks hle (by omega) hk
  exact before_of_valueAt_eq hsa hm rfl he

end HeliosProxy.Counters
