import HeliosProxy.Cache.L2Warm
import HeliosProxy.Lib.Runs

/-!
# The records of the spill file

A record is read with lengths that stand in it.  All of them are compared with what is left
of the buffer, the length of the data after a sum that may overflow.  A record is written at
the end of the file and looked for at the end that the storage has counted, and a write that
fails behind its first byte parts the two.
-/

namespace HeliosProxy.L2Warm

open Wire Lru Runs Option Function

/-! ## Reading a record -/

/-- `b[lo..hi]`, where `none` is a panic. -/
def slice (lo hi : Nat) (b : Bytes) : Option Bytes :=
  if lo ≤ hi ∧ hi ≤ b.length then some ((b.drop lo).take (hi - lo)) else none

/-- The sum of two `usize`.  Past the end it panics or wraps; a wrapped sum with 24 is below
24, where the slice from 24 panics. -/
def checkedAdd (a b : Nat) : Option Nat := if a + b < 2 ^ 64 then some (a + b) else none

/-- `deserialize_result` with its slices, where `none` is a panic. -/
def deserializeChecked (buffer : Bytes) (cachedAt ttl now : Nat) : Option (Option CachedResult) :=
  if buffer.length < 24 then some none
  else do
    let ttlSecs ← slice 0 8 buffer
    if fromLeBytes ttlSecs ≠ asSecs ttl then some none
    else do
      let rowCount ← slice 8 16 buffer
      let dataLen ← slice 16 24 buffer
      let stop ← checkedAdd 24 (fromLeBytes dataLen)
      if buffer.length < stop then some none
      else do
        let data ← slice 24 stop buffer
        let rest ← slice stop buffer.length buffer
        some do
          let (generation, rest) ← takeBytes 8 rest
          let (count, rest) ← takeBytes 4 rest
          let tables ← deserializeTables (fromLeBytes count) rest
          if mmapExpiredAt cachedAt ttl now then none
          else if hs : data.length < 2 ^ 63 then
            some { data := ⟨data,
              hs⟩, rowCount := .ofNat (fromLeBytes rowCount), cachedAt, ttl, tables,
                   executionTime := 0, generation := .ofNat (fromLeBytes generation) }
          else none

def ttlField (b : Bytes) : Nat := fromLeBytes (b.take 8)

def lengthField (b : Bytes) : Nat := fromLeBytes ((b.drop 16).take 8)

/-- The buffer has a header of the lifetime asked for, with a length of the data from which 24
bytes on there are no numbers left. -/
def Overflows (b : Bytes) (ttl : Nat) : Prop :=
  24 ≤ b.length ∧ ttlField b = asSecs ttl ∧ 2 ^ 64 ≤ 24 + lengthField b

instance (b : Bytes) (ttl : Nat) : Decidable (Overflows b ttl) :=
  inferInstanceAs (Decidable (_ ∧ _ ∧ _))

variable {cachedAt ttl now : Nat}

theorem takeBytes_of_le {n : Nat} {b : Bytes} (he : n ≤ b.length) :
    takeBytes n b = some (b.take n, b.drop n) :=
  if_neg (not_lt.mpr he)

theorem slice_of_le {lo hi : Nat} {b : Bytes} (ho : lo ≤ hi) (hw : hi ≤ b.length) :
    slice lo hi b = some ((b.drop lo).take (hi - lo)) := if_pos ⟨ho, hw⟩

theorem tableBytes_of_fromUTF8 {bytes : Bytes} {table : String}
    (hv : String.fromUTF8? ⟨bytes.toArray⟩ = some table) :
    tableBytes table = bytes := by
  unfold String.fromUTF8? at hv
  split at hv
  · cases hv
    rfl
  · cases hv

theorem deserializeTables_append {count : Nat} {p : Bytes} {tables : List String}
    (hr : deserializeTables count p = some tables) (q : Bytes) :
    deserializeTables count (p ++ q) = some tables ∧
      (serializeTables tables).length ≤ p.length := by
  induction count generalizing p tables with
  | zero =>
    cases hr
    exact ⟨rfl, Nat.zero_le _⟩
  | succ count ih =>
    obtain ⟨⟨len, rest⟩, hf, hr⟩ := bind_eq_some_iff.mp hr
    obtain ⟨⟨bytes, rest⟩, hs, hr⟩ := bind_eq_some_iff.mp hr
    obtain ⟨table, hv, hr⟩ := bind_eq_some_iff.mp hr
    obtain ⟨tables, hm, ⟨⟩⟩ := bind_eq_some_iff.mp hr
    obtain ⟨rfl, hfo⟩ := takeBytes_eq_some hf
    obtain ⟨rfl, hl⟩ := takeBytes_eq_some hs
    obtain ⟨ha, hsh⟩ := ih hm
    constructor
    · simp only [deserializeTables, List.append_assoc, takeBytes_append hfo, takeBytes_append hl,
        bind_eq_bind, bind_some, hv, ha]
    · simp only [serializeTables, tableBytes_of_fromUTF8 hv, List.length_append, length_toLeBytes]
      omega

theorem deserializeResult_append {p : Bytes} {r : CachedResult}
    (hr : deserializeResult p cachedAt ttl now = some r) (q : Bytes) :
    deserializeResult (p ++ q) cachedAt ttl now = some r ∧
      (serializeResult r).length ≤ p.length := by
  obtain ⟨⟨secs, rest⟩, hf, hr⟩ := bind_eq_some_iff.mp hr
  obtain ⟨⟨rows, rest⟩, hs, hr⟩ := bind_eq_some_iff.mp hr
  obtain ⟨⟨len, rest⟩, ht, hr⟩ := bind_eq_some_iff.mp hr
  obtain ⟨hsa, hr⟩ := ite_none_left_eq_some.mp hr
  obtain ⟨⟨data, rest⟩, hfo, hr⟩ := bind_eq_some_iff.mp hr
  obtain ⟨⟨generation, rest⟩, hfi, hr⟩ := bind_eq_some_iff.mp hr
  obtain ⟨⟨count, rest⟩, hsi, hr⟩ := bind_eq_some_iff.mp hr
  obtain ⟨tables, hp, hr⟩ := bind_eq_some_iff.mp hr
  obtain ⟨ha, hr⟩ := ite_none_left_eq_some.mp hr
  split at hr
  · next hsiz =>
    cases hr
    obtain ⟨rfl, hn₁⟩ := takeBytes_eq_some hf
    obtain ⟨rfl, hn₂⟩ := takeBytes_eq_some hs
    obtain ⟨rfl, hn₃⟩ := takeBytes_eq_some ht
    obtain ⟨rfl, hn₄⟩ := takeBytes_eq_some hfo
    obtain ⟨rfl, hn₅⟩ := takeBytes_eq_some hfi
    obtain ⟨rfl, hn₆⟩ := takeBytes_eq_some hsi
    obtain ⟨hag, hsh⟩ := deserializeTables_append hp q
    constructor
    · simp only [deserializeResult, List.append_assoc, takeBytes_append hn₁, takeBytes_append hn₂,
        takeBytes_append hn₃, takeBytes_append hn₄, takeBytes_append hn₅, takeBytes_append hn₆,
        bind_eq_bind,
        bind_some, if_neg hsa, hag, if_neg ha, dif_pos hsiz]
    · simp only [serializeResult, List.length_append, length_toLeBytes]
      omega
  · cases hr

theorem deserializeChecked_eq (buffer : Bytes) :
    deserializeChecked buffer cachedAt ttl now =
      if Overflows buffer ttl then none else some (deserializeResult buffer cachedAt ttl now) := by
  unfold deserializeChecked
  by_cases hsh : buffer.length < 24
  · have hre : deserializeResult buffer cachedAt ttl now = none := by
      by_contra hr
      obtain ⟨r, hr⟩ := ne_none_iff_exists'.mp hr
      have he := (deserializeResult_append hr []).2
      simp only [serializeResult, List.length_append, length_toLeBytes] at he
      omega
    rw [if_pos hsh, hre, if_neg fun h => not_lt.mpr h.1 hsh]
  have hlo : 24 ≤ buffer.length := not_lt.mp hsh
  have hfi : takeBytes 8 buffer = some (buffer.take 8, buffer.drop 8) := takeBytes_of_le (by omega)
  have hse : takeBytes 8 (buffer.drop 8) = some ((buffer.drop 8).take 8, buffer.drop 16) := by
    rw [takeBytes_of_le (by rw [List.length_drop]; omega), List.drop_drop]
  have ht : takeBytes 8 (buffer.drop 16) = some ((buffer.drop 16).take 8, buffer.drop 24) := by
    rw [takeBytes_of_le (by rw [List.length_drop]; omega), List.drop_drop]
  rw [if_neg hsh, slice_of_le (by decide) (by omega), slice_of_le (by decide) (by omega),
    slice_of_le (by decide) (by omega), deserializeResult, hfi]
  simp only [bind_eq_bind, bind_some, List.drop_zero, hse, ht, Nat.reduceSub,
    ← ttlField.eq_1 buffer, ← lengthField.eq_1 buffer]
  by_cases hs : ttlField buffer = asSecs ttl
  · rw [if_neg (not_not.mpr hs), if_neg (not_not.mpr hs), checkedAdd]
    by_cases hf : 24 + lengthField buffer < 2 ^ 64
    · rw [if_pos hf, bind_some, if_neg fun h : Overflows buffer ttl => not_lt.mpr h.2.2 hf]
      by_cases hl : buffer.length < 24 + lengthField buffer
      · rw [if_pos hl, takeBytes, if_pos (by rw [List.length_drop]; omega), bind_none]
      · have hd : takeBytes (lengthField buffer) (buffer.drop 24) =
            some ((buffer.drop 24).take (lengthField buffer),
            buffer.drop (24 + lengthField buffer)) := by
          rw [takeBytes_of_le (by rw [List.length_drop]; omega), List.drop_drop]
        rw [if_neg hl, slice_of_le (by omega) (by omega), bind_some,
          slice_of_le (by omega) (by omega), bind_some, hd,
          List.take_of_length_le (by rw [List.length_drop]), Nat.add_sub_cancel_left]
        rfl
    · rw [if_neg hf, bind_none, if_pos ⟨hlo, hs, Nat.not_lt.mp hf⟩]
  · rw [if_pos hs, if_pos hs, if_neg fun h : Overflows buffer ttl => hs h.2.1]

/-! ## Fronts of a record -/

theorem Overflows.append {p : Bytes} (ho : Overflows p ttl) (q : Bytes) :
    Overflows (p ++ q) ttl := by
  obtain ⟨hl, hs, hm⟩ := ho
  have hl' : 24 ≤ (p ++ q).length := by rw [List.length_append]; omega
  refine ⟨hl', ?_, ?_⟩
  · rwa [ttlField, List.take_append_of_le_length (by omega)]
  · rwa [lengthField, List.drop_append_of_le_length (by omega),
      List.take_append_of_le_length (by rw [List.length_drop]; omega)]

theorem not_overflows_serializeResult (r : CachedResult) : ¬ Overflows (serializeResult r) ttl := by
  rintro ⟨-, -, hm⟩
  have hf : lengthField (serializeResult r) = r.data.1.length := by
    rw [lengthField, serializeResult, ← List.append_assoc, List.drop_left' (by simp),
      List.take_left' (by simp), fromLeBytes_toLeBytes]
    exact Nat.mod_eq_of_lt (r.data.2.trans (by decide))
  have := r.data.2
  omega

theorem spill_format (r : CachedResult) (now : Nat) :
    (TablesFit r.tables → mmapExpiredAt r.cachedAt r.ttl now = false →
      deserializeChecked (serializeResult r) r.cachedAt r.ttl now = some
        (some { r with executionTime := 0 }) ∧
      ∀ p, p <+: serializeResult r → p ≠ serializeResult r →
        deserializeChecked p r.cachedAt r.ttl now = some none) ∧
    ∀ buffer cachedAt ttl now, (deserializeChecked buffer cachedAt ttl now).isSome = true ↔
      ¬ Overflows buffer ttl := by
  constructor
  · intro hfit halive
    have hwhole :
      deserializeResult (serializeResult r) r.cachedAt r.ttl now =
      some { r with executionTime := 0 } := by
      rw [deserializeResult_serializeResult, deserializeTables_of_fit hfit, halive]
      rfl
    refine ⟨by rw [deserializeChecked_eq, if_neg (not_overflows_serializeResult r), hwhole],
      fun p hfront hless => ?_⟩
    obtain ⟨q, hjoined⟩ := hfront
    have hsafe :
      ¬ Overflows p r.ttl := fun h => not_overflows_serializeResult r (hjoined ▸ h.append q)
    rw [deserializeChecked_eq, if_neg hsafe, some_inj]
    by_contra hread
    obtain ⟨r', hread⟩ := ne_none_iff_exists'.mp hread
    obtain ⟨hagain, henough⟩ := deserializeResult_append hread q
    rw [hjoined, hwhole] at hagain
    cases hagain
    have hlength := congrArg List.length hjoined
    rw [List.length_append] at hlength
    have hnone_left : q = [] := List.length_eq_zero_iff.mp (by
      have hsame :
        (serializeResult { r with executionTime := 0 }).length = (serializeResult r).length := rfl
      omega)
    rw [hnone_left, List.append_nil] at hjoined
    exact hless hjoined
  · intro buffer cachedAt ttl now
    rw [deserializeChecked_eq]
    split
    · next h => exact ⟨nofun, fun hsafe => absurd h hsafe⟩
    · next h => exact ⟨fun _ => h, fun _ => rfl⟩

theorem spill_format_row :
    deserializeChecked (serializeResult ⟨⟨[1], by decide⟩, 1, 0, 5 * 10 ^ 9, ["t"], 7, 3⟩) 0
      (5 * 10 ^ 9) 1 =
      some (some ⟨⟨[1], by decide⟩, 1, 0, 5 * 10 ^ 9, ["t"], 0, 3⟩) :=
  ((spill_format ⟨⟨[1], by decide⟩, 1, 0, 5 * 10 ^ 9, ["t"], 7, 3⟩ 1).1
    ⟨by decide, List.forall_mem_singleton.mpr (by decide)⟩ (by decide)).1

/-- A header whose data would have `2 ^ 64 - 1` bytes. -/
theorem not_spill_format :
    deserializeChecked (toLeBytes 8 5 ++ toLeBytes 8 0 ++ toLeBytes 8 (2 ^ 64 - 1)) 0
      (5 * 10 ^ 9) 0 = none := by
  decide

/-! ## The storage over a run -/

inductive StorageCall
  | put (hash : UInt64) (result : CachedResult) (write : Write)
  | remove (hash : UInt64)
  | clear (truncates : Bool)

def MmapStorage.clear (s : MmapStorage) (truncates : Bool) : MmapStorage :=
  ⟨if truncates then [] else s.file, [], 0⟩

/-- The storage, and what the latest put that succeeded has left under each hash. -/
structure Spilled where
  storage : MmapStorage
  latest : UInt64 → Option CachedResult

def Spilled.step (s : Spilled) : StorageCall → Option Spilled
  | .put hash result write =>
    some ⟨s.storage.put hash result write,
      match write with
      | .whole => update s.latest hash (some result)
      | _ => s.latest⟩
  | .remove hash => some ⟨s.storage.remove hash, update s.latest hash none⟩
  | .clear truncates => some ⟨s.storage.clear truncates, fun _ => none⟩

def Spilled.new : Spilled := ⟨.new, fun _ => none⟩

/-- A put that succeeds finds the file's end where the storage has counted it, and its tables fit.
-/
def Aligned (s : Spilled) : StorageCall → Prop
  | .put _ result .whole => s.storage.file.length = s.storage.fileSize ∧ TablesFit result.tables
  | _ => True

def Indexed (s : Spilled) : Prop :=
  ∀ hash e, lookup hash s.storage.index = some e →
    ∃ r, s.latest hash = some r ∧ Holds s.storage.file e r ∧ TablesFit r.tables

theorem Indexed.step {s s' : Spilled} {call : StorageCall} (hi : Indexed s) (ha : Aligned s call)
    (hst : s.step call = some s') : Indexed s' := by
  cases call with
  | put hash result write =>
    cases hst
    cases write with
    | refused => exact hi
    | torn written =>
      intro hash e hf
      obtain ⟨r, hl, hh, hfi⟩ := hi hash e hf
      exact ⟨r, hl, hh.append _, hfi⟩
    | whole =>
      obtain ⟨hsi, hfi⟩ := ha
      intro hash' e hf
      by_cases hs : hash' = hash
      · subst hs
        rw [MmapStorage.put, lookup_insert_self] at hf
        cases hf
        refine ⟨result, update_self .., ⟨?_, ?_, rfl, rfl⟩, hfi⟩
        · rw [MmapStorage.put, List.length_append, hsi]
        · rw [MmapStorage.put, ← hsi, List.drop_left, List.take_length]
      · rw [MmapStorage.put, lookup_insert_of_ne hs] at hf
        obtain ⟨r, hl, hh, hfi'⟩ := hi hash' e hf
        exact ⟨r, (update_of_ne hs ..).trans hl, hh.append _, hfi'⟩
  | remove hash =>
    cases hst
    intro hash' e hf
    by_cases hs : hash' = hash
    · subst hs
      rw [MmapStorage.remove, lookup_erase_self] at hf
      cases hf
    · rw [MmapStorage.remove, lookup_erase_of_ne hs] at hf
      obtain ⟨r, hl, hr⟩ := hi hash' e hf
      exact ⟨r, (update_of_ne hs ..).trans hl, hr⟩
  | clear truncates =>
    cases hst
    intro hash e hf
    cases hf

theorem spilled_intact {calls : List StorageCall} {s : Spilled}
    (haligned : Along Spilled.step Aligned .new calls)
    (hran : run Spilled.step .new calls = some s) {hash : UInt64} {readable : Bool}
    {before after : Nat} {r : CachedResult}
    (hread : s.storage.get hash readable before after = some r) :
    ∃ r₀, s.latest hash = some r₀ ∧ r.data = r₀.data ∧ r.rowCount = r₀.rowCount ∧
      r.tables = r₀.tables ∧
      r.generation = r₀.generation := by
  have hindexed : Indexed s :=
    run_invariant_along (fun s call s' => Indexed.step) (fun _ _ hfound => by cases hfound)
    haligned hran
  obtain ⟨entry, hfound, hread⟩ := bind_eq_some_iff.mp hread
  obtain ⟨-, hread⟩ := ite_none_left_eq_some.mp hread
  obtain ⟨-, hread⟩ := ite_none_right_eq_some.mp hread
  obtain ⟨r₀, hlatest, hholds, hfit⟩ := hindexed hash entry hfound
  rw [hholds.bytes, hholds.cachedAt, hholds.ttl] at hread
  have hrestored := restores_of_deserialize hread
  exact ⟨r₀, hlatest, hrestored.data, hrestored.rowCount, hrestored.tables hfit,
    hrestored.generation⟩

theorem spilled_intact_remove :
    ∃ s, run Spilled.step .new
      [.put 1 (oneByte 1) .whole, .put 2 (oneByte 2) .refused, .remove 2] = some s ∧
      (s.storage.get 1 true 1 1).map (·.data) = some (oneByte 1).data ∧
      ∃ r₀, s.latest 1 = some r₀ ∧ (oneByte 1).data = r₀.data := by
  refine ⟨_, rfl, by decide, ?_⟩
  obtain ⟨r₀, hlatest, hdata, -⟩ :=
    @spilled_intact [.put 1 (oneByte 1) .whole, .put 2 (oneByte 2) .refused, .remove 2] _
      ⟨⟨rfl, by decide, nofun⟩,
        fun _ _ => ⟨trivial, fun _ _ => ⟨trivial, fun _ _ => trivial⟩⟩⟩ rfl 1 true 1 1
      (oneByte 1) (by decide)
  exact ⟨r₀, hlatest, hdata⟩

/-- The first write fails before its last byte, and the second record is read from the first
byte of the file on. -/
theorem not_spilled_intact :
    ((run Spilled.step .new [.put 1 (oneByte 1) (.torn 36), .put 2 (oneByte 2) .whole]).bind
      fun s =>
      s.storage.get 2 true 1 1).map (·.data) = some (oneByte 1).data := by
  decide

end HeliosProxy.L2Warm
