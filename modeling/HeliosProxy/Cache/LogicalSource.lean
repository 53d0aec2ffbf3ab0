import HeliosProxy.Cache.L2Warm
import HeliosProxy.Lib.Runs

/-!
# Tables out of the replication stream

`PgOutputDecoder` reads the messages of `pgoutput`: a relation message names an oid, data
messages collect the names a transaction touches, its commit releases them.  A message
that cannot be read marks the open transaction, whose commit then invalidates everything.

The names outlive the transaction and the mark does not.  A relation message that renames
an oid and cannot be read leaves the old name, under which later transactions are filed.
As long as that does not happen no table is missed.

Results do not depend on what `str::to_lowercase` computes.
-/

namespace HeliosProxy.Cache.Logical

open Wire List Option Function
open L2Warm (tableBytes fromUTF8_tableBytes)

/-! ## The decoder -/

inductive Invalidation
  | tables (names : List String)
  | all
deriving DecidableEq

structure OpenTx where
  tables : List String
  unknown : Bool

structure PgOutputDecoder where
  relations : UInt32 → Option String
  opened : Option OpenTx

def readU32 (b : Bytes) (start : Nat) : Option UInt32 :=
  if start + 4 ≤ b.length then some (fromBeBytes ((b.drop start).take 4)) else none

def readCstr (b : Bytes) (start : Nat) : Option (String × Nat) :=
  if start ≤ b.length then do
    let rest := b.drop start
    let stop ← rest.findIdx? (· == 0)
    let text ← String.fromUTF8? ⟨(rest.take stop).toArray⟩
    some (text, start + stop + 1)
  else none

section Decoder

variable (toLowercase : String → String)

def parseRelation (body : Bytes) : Option (UInt32 × String) := do
  let oid ← readU32 body 0
  let (_, next) ← readCstr body 4
  let (relname, _) ← readCstr body next
  some (oid, toLowercase relname)

namespace PgOutputDecoder

def new : PgOutputDecoder := ⟨fun _ => none, none⟩

def touch (d : PgOutputDecoder) (oid : UInt32) : PgOutputDecoder :=
  let tx := d.opened.getD ⟨[], false⟩
  match d.relations oid with
  | some name => { d with opened := some (if name ∈ tx.tables then tx
      else { tx with tables := tx.tables ++ [name] }) }
  | none => { d with opened := some { tx with unknown := true } }

def taint (d : PgOutputDecoder) : Option Invalidation × PgOutputDecoder :=
  match d.opened with
  | some tx => (none, { d with opened := some { tx with unknown := true } })
  | none => (some .all, d)

/-- The oids of a truncate message from the `i`-th on. -/
def truncate (body : Bytes) : Nat → Nat → PgOutputDecoder → Option Invalidation × PgOutputDecoder
  | _, 0, d => (none, d)
  | i, count + 1, d =>
    match readU32 body (5 + 4 * i) with
    | some oid => truncate body (i + 1) count (d.touch oid)
    | none => d.taint

/-- The tags are `B`, `R`, `I`, `U`, `D`, `T` and `C`. -/
def feed (d : PgOutputDecoder) : Bytes → Option Invalidation × PgOutputDecoder
  | [] => (some .all, d)
  | tag :: body =>
    if tag = 0x42 then (none, { d with opened := some ⟨[], false⟩ })
    else if tag = 0x52 then
      match parseRelation toLowercase body with
      | some (oid, name) => (none, { d with relations := update d.relations oid (some name) })
      | none => d.taint
    else if tag = 0x49 ∨ tag = 0x55 ∨ tag = 0x44 then
      match readU32 body 0 with
      | some oid => (none, d.touch oid)
      | none => d.taint
    else if tag = 0x54 then
      match readU32 body 0 with
      | some n => truncate body 0 n.toNat d
      | none => d.taint
    else if tag = 0x43 then
      let tx := d.opened.getD ⟨[], false⟩
      (if tx.unknown then some .all else if tx.tables.isEmpty then none
        else some (.tables tx.tables), { d with opened := none })
    else (none, d)

end PgOutputDecoder

/-! ## The stream -/

/-- A message as the server sends it; a change is an insert, an update or a delete. -/
inductive Sent
  | begin
  | relation (oid : UInt32) (name : String)
  | change (oid : UInt32)
  | truncate (oids : List UInt32)
  | commit

def Sent.Encodes : Sent → Bytes → Prop
  | .begin, bytes => ∃ body, bytes = 0x42 :: body
  | .relation oid name, bytes => ∃ schema rest, 0 ∉ tableBytes schema ∧ 0 ∉ tableBytes name ∧
      bytes = 0x52 :: (toBeBytes oid ++ (tableBytes schema ++ 0 :: (tableBytes name ++ 0 :: rest)))
  | .change oid, bytes =>
    ∃ tag rest, (tag = 0x49 ∨ tag = 0x55 ∨ tag = 0x44) ∧ bytes = tag :: (toBeBytes oid ++ rest)
  | .truncate oids, bytes => ∃ options, oids.length < 2 ^ 32 ∧
      bytes = 0x54 :: (toBeBytes (.ofNat oids.length) ++ options :: oids.flatMap toBeBytes)
  | .commit, bytes => ∃ body, bytes = 0x43 :: body

def Sent.Malformed (m : Sent) (bytes : Bytes) : Prop :=
  bytes = [] ∨
  match m with
  | .relation _ _ => ∃ body, bytes = 0x52 :: body ∧ parseRelation toLowercase body = none
  | .change _ =>
    ∃ tag body, (tag = 0x49 ∨ tag = 0x55 ∨ tag = 0x44) ∧ bytes = tag :: body ∧ readU32 body 0 = none
  | .truncate _ => ∃ body, bytes = 0x54 :: body ∧
      ∀ n, readU32 body 0 = some n → ∃ i < n.toNat, readU32 body (5 + 4 * i) = none
  | .begin | .commit => False

structure Delivery where
  sent : Sent
  bytes : Bytes
  arrives : sent.Encodes bytes ∨ sent.Malformed toLowercase bytes

/-- The decoder with what it should know: the name last sent for each oid, the names the
open transaction has changed and what was returned in it, and the same of those that
have committed. -/
structure Stream where
  decoder : PgOutputDecoder
  names : UInt32 → Option String
  inTx : Bool
  changed : List String
  returned : List Invalidation
  committed : List (List String × List Invalidation)

namespace Stream

def new : Stream := ⟨.new, fun _ => none, false, [], [], []⟩

def step (s : Stream) (m : Delivery toLowercase) : Option Stream :=
  let (result, decoder) := s.decoder.feed toLowercase m.bytes
  match m.sent, s.inTx with
  | .begin, false => some { s with decoder, inTx := true, changed := [], returned := result.toList }
  | .relation oid name, true =>
    some { s with
      decoder
      names := update s.names oid (some name)
      returned := s.returned ++ result.toList }
  | .change oid, true => (s.names oid).map fun name =>
      { s with decoder, changed := s.changed ++ [toLowercase
        name], returned := s.returned ++ result.toList }
  | .truncate oids, true => (oids.mapM s.names).map fun names =>
      { s with decoder, changed := s.changed ++ names.map toLowercase, returned := s.returned ++
        result.toList }
  | .commit, true =>
    some { s with
      decoder
      inTx := false
      committed := s.committed ++ [(s.changed, s.returned ++ result.toList)] }
  | _, _ => none

end Stream

end Decoder

def Sound (changed : List String) (returned : List Invalidation) : Prop :=
  .all ∈ returned ∨ ∀ name ∈ changed, ∃ names, .tables names ∈ returned ∧ name ∈ names

/-! ## Reading what was sent -/

theorem readU32_append (front : Bytes) (n : UInt32) (rest : Bytes) :
    readU32 (front ++ (toBeBytes n ++ rest)) front.length = some n := by
  have hf : (toBeBytes n).length = 4 := rfl
  have hfi : front.length + 4 ≤ (front ++ (toBeBytes n ++ rest)).length := by
    rw [length_append, length_append]
    omega
  rw [readU32, if_pos hfi, drop_left, ← hf, take_left, fromBeBytes_toBeBytes]

theorem findIdx_nul {text : Bytes} (hf : 0 ∉ text) (rest : Bytes) :
    (text ++ 0 :: rest).findIdx? (· == 0) = some text.length := by
  induction text with
  | nil => rfl
  | cons c text ih =>
    rw [mem_cons, not_or] at hf
    obtain ⟨hd, hf⟩ := hf
    rw [cons_append, findIdx?_cons, ih hf, if_neg (by simpa using Ne.symm hd)]
    rfl

variable {name : String}

theorem readCstr_append (front : Bytes) (hf : 0 ∉ tableBytes name) (rest : Bytes) :
    readCstr (front ++ (tableBytes name ++ 0 :: rest)) front.length =
      some (name, front.length + (tableBytes name).length + 1) := by
  have hfi : front.length ≤ (front ++ (tableBytes name ++ 0 :: rest)).length := by
    rw [length_append]
    omega
  rw [readCstr, if_pos hfi]
  dsimp only
  rw [drop_left, findIdx_nul hf, bind_eq_bind, bind_some, take_left, fromUTF8_tableBytes]
  rfl

section Reading

variable {toLowercase : String → String}

theorem parseRelation_encodes (oid : UInt32) {schema : String} (hsc : 0 ∉ tableBytes schema)
    (hn : 0 ∉ tableBytes name) (rest : Bytes) :
    parseRelation toLowercase
      (toBeBytes oid ++ (tableBytes schema ++ 0 :: (tableBytes name ++ 0 :: rest))) =
      some (oid, toLowercase name) := by
  have hf := readU32_append [] oid (tableBytes schema ++ 0 :: (tableBytes name ++ 0 :: rest))
  have hs := readCstr_append (toBeBytes oid) hsc (tableBytes name ++ 0 :: rest)
  have ht := readCstr_append (toBeBytes oid ++ (tableBytes schema ++ [0])) hn rest
  have hl : (toBeBytes oid ++ (tableBytes schema ++ [0])).length =
    4 + (tableBytes schema).length + 1 := by
    rw [length_append, length_append]
    rfl
  rw [append_assoc, append_assoc, singleton_append, hl] at ht
  rw [nil_append, length_nil] at hf
  rw [show (toBeBytes oid).length = 4 from rfl] at hs
  rw [parseRelation, hf, bind_eq_bind, bind_some, hs, bind_eq_bind, bind_some]
  dsimp only
  rw [ht]
  rfl

namespace PgOutputDecoder

theorem truncate_encodes (front : Bytes) (i : Nat) (oids : List UInt32) (d : PgOutputDecoder)
    (hl : front.length = 5 + 4 * i) :
    truncate (front ++ oids.flatMap toBeBytes) i oids.length d = (none, oids.foldl touch d) := by
  induction oids generalizing front i d with
  | nil => rfl
  | cons oid oids ih =>
    have hr := readU32_append front oid (oids.flatMap toBeBytes)
    have hn := ih (front ++ toBeBytes oid) (i + 1) (d.touch oid) (by
      rw [length_append, show (toBeBytes oid).length = 4 from rfl]
      omega)
    rw [hl] at hr
    rw [append_assoc] at hn
    rw [flatMap_cons, length_cons, truncate, hr]
    exact hn

end PgOutputDecoder

end Reading

/-! ## What the open transaction has noted -/

def Noted (opened : Option OpenTx) (changed : List String) (returned : List Invalidation) : Prop :=
  .all ∈ returned ∨ (∃ tx ∈ opened, tx.unknown = true) ∨
    ∀ name ∈ changed, ∃ tx ∈ opened, name ∈ tx.tables

namespace PgOutputDecoder

variable {d : PgOutputDecoder} {changed : List String} {returned : List Invalidation}

theorem relations_touch
    (d : PgOutputDecoder) (oid : UInt32) : (d.touch oid).relations = d.relations := by
  unfold touch
  split <;> rfl

theorem relations_taint (d : PgOutputDecoder) : d.taint.2.relations = d.relations := by
  unfold taint
  split <;> rfl

theorem noted_taint (d : PgOutputDecoder) (changed : List String) (returned : List Invalidation) :
    Noted d.taint.2.opened changed (returned ++ d.taint.1.toList) := by
  unfold taint
  split
  · exact .inr (.inl ⟨_, rfl, rfl⟩)
  · exact .inl (mem_append_right _ (mem_singleton.mpr rfl))

theorem noted_touch {oid : UInt32} (hk : ∀ k, d.relations oid = some k → k = name)
    (hn : Noted d.opened changed returned) : Noted
    (d.touch oid).opened (changed ++ [name]) returned := by
  unfold touch
  split
  case h_2 => exact .inr (.inl ⟨_, rfl, rfl⟩)
  case h_1 k hf =>
    cases hk k hf
    have hg : ∀ tx ∈ d.opened, tx = d.opened.getD ⟨[], false⟩ := by
      intro tx hh
      rw [mem_def.mp hh, getD_some]
    rcases hn with ha | ⟨tx, hh, hu⟩ | hc
    · exact .inl ha
    · refine .inr (.inl ⟨_, rfl, ?_⟩)
      rw [← hg tx hh]
      split <;> exact hu
    · refine .inr (.inr fun name hm => ⟨_, rfl, ?_⟩)
      rcases mem_append.mp hm with hm | hm
      · obtain ⟨tx, hh, hm⟩ := hc name hm
        rw [← hg tx hh]
        split
        · exact hm
        · exact mem_append_left _ hm
      · cases mem_singleton.mp hm
        split
        · assumption
        · exact mem_append_right _ (mem_singleton.mpr rfl)

theorem relations_foldl_touch (oids : List UInt32) (d : PgOutputDecoder) :
    (oids.foldl touch d).relations = d.relations := by
  induction oids generalizing d with
  | nil => rfl
  | cons oid oids ih => rw [foldl_cons, ih, relations_touch]

theorem noted_foldl_touch {toLowercase : String → String} {sent : UInt32 → Option String}
    {oids : List UInt32} {names : List String} (hn : oids.mapM sent = some names)
    (hk : ∀ oid k, d.relations oid = some k → ∀ name, sent oid = some name → k = toLowercase name)
    (hno : Noted d.opened changed returned) :
    Noted (oids.foldl touch d).opened (changed ++ names.map toLowercase) returned := by
  induction oids generalizing d changed names with
  | nil =>
    cases hn
    show Noted d.opened (changed ++ []) returned
    rwa [List.append_nil]
  | cons oid oids ih =>
    rw [mapM_cons] at hn
    obtain ⟨name, hf, hn⟩ := bind_eq_some_iff.mp hn
    obtain ⟨rest, hl, hs⟩ := bind_eq_some_iff.mp hn
    cases hs
    have ht := noted_touch (fun k hfo => hk oid k hfo name hf) hno
    have hw := ih hl (by rwa [relations_touch]) ht
    rwa [append_assoc] at hw

theorem relations_truncate (body : Bytes) (i count : Nat) (d : PgOutputDecoder) :
    (truncate body i count d).2.relations = d.relations := by
  induction count generalizing i d with
  | zero => rfl
  | succ count ih =>
    unfold truncate
    split
    · rw [ih, relations_touch]
    · exact relations_taint d

theorem noted_truncate {body : Bytes} {i count : Nat}
    (hb : ∃ j < i + count, i ≤ j ∧ readU32 body (5 + 4 * j) = none)
    (d : PgOutputDecoder) (changed : List String) (returned : List Invalidation) :
    Noted (truncate body i count d).2.opened changed
      (returned ++ (truncate body i count d).1.toList) := by
  induction count generalizing i d with
  | zero =>
    omega
  | succ count ih =>
    obtain ⟨j, hbe, ha, hm⟩ := hb
    unfold truncate
    split
    · next oid hr =>
      refine ih ⟨j, by omega, ?_, hm⟩ _
      rcases Nat.lt_or_ge i j with hl | hs
      · exact hl
      · have hh : i = j := by omega
        rw [hh, hm] at hr
        cases hr
    · exact noted_taint d changed returned

end PgOutputDecoder

/-! ## One message -/

section Feed

variable {toLowercase : String → String} {d : PgOutputDecoder} {bytes : Bytes}
  {changed : List String}
  {returned : List Invalidation}

theorem noted_all (opened : Option OpenTx) (changed : List String) (returned : List Invalidation) :
    Noted opened changed (returned ++ (some Invalidation.all).toList) :=
  .inl (mem_append_right _ (mem_singleton.mpr rfl))

theorem feed_relation_tag (d : PgOutputDecoder) (body : Bytes) :
    d.feed toLowercase (0x52 :: body) =
      match parseRelation toLowercase body with
      | some (oid, name) => (none, { d with relations := update d.relations oid (some name) })
      | none => d.taint := rfl

theorem feed_change_tag {tag : UInt8} (hi : tag = 0x49 ∨ tag = 0x55 ∨ tag = 0x44)
    (d : PgOutputDecoder) (body : Bytes) :
    d.feed toLowercase (tag :: body) =
      match readU32 body 0 with
      | some oid => (none, d.touch oid)
      | none => d.taint := by
  rcases hi with rfl | rfl | rfl <;> rfl

theorem feed_truncate_tag (d : PgOutputDecoder) (body : Bytes) :
    d.feed toLowercase (0x54 :: body) =
      match readU32 body 0 with
      | some n => PgOutputDecoder.truncate body 0 n.toNat d
      | none => d.taint := rfl

variable {oid : UInt32}

theorem feed_change
    (ha : (Sent.change oid).Encodes bytes ∨ (Sent.change oid).Malformed toLowercase bytes)
    (hk : ∀ k, d.relations oid = some k → k = name) (hn : Noted d.opened changed returned) :
    (d.feed toLowercase bytes).2.relations = d.relations ∧
      Noted (d.feed toLowercase bytes).2.opened (changed ++ [name])
        (returned ++ (d.feed toLowercase bytes).1.toList) := by
  rcases ha with ⟨tag, rest, hi, rfl⟩ | rfl | ⟨tag, body, hi, rfl, hm⟩
  · have hr := readU32_append [] oid rest
    rw [nil_append, length_nil] at hr
    rw [feed_change_tag hi, hr]
    refine ⟨d.relations_touch oid, ?_⟩
    simpa using PgOutputDecoder.noted_touch hk hn
  · exact ⟨rfl, noted_all _ _ _⟩
  · rw [feed_change_tag hi, hm]
    exact ⟨d.relations_taint, d.noted_taint _ _⟩

theorem feed_truncate {oids : List UInt32} {sent : UInt32 → Option String} {names : List String}
    (ha : (Sent.truncate oids).Encodes bytes ∨ (Sent.truncate oids).Malformed toLowercase bytes)
    (hn : oids.mapM sent = some names)
    (hk : ∀ oid k, d.relations oid = some k → ∀ name, sent oid = some name → k = toLowercase name)
    (hno : Noted d.opened changed returned) :
    (d.feed toLowercase bytes).2.relations = d.relations ∧
      Noted (d.feed toLowercase bytes).2.opened (changed ++ names.map toLowercase)
        (returned ++ (d.feed toLowercase bytes).1.toList) := by
  rcases ha with ⟨options, hs, rfl⟩ | rfl | ⟨body, rfl, hb⟩
  · have hr := readU32_append [] (.ofNat oids.length) (options :: oids.flatMap toBeBytes)
    have hc : (UInt32.ofNat oids.length).toNat = oids.length := UInt32.toNat_ofNat_of_lt' hs
    have hf : toBeBytes (.ofNat oids.length) ++ options :: oids.flatMap toBeBytes =
        (toBeBytes (.ofNat oids.length) ++ [options]) ++ oids.flatMap toBeBytes := by simp
    rw [nil_append, length_nil] at hr
    rw [feed_truncate_tag, hr]
    dsimp only
    rw [hc, hf, PgOutputDecoder.truncate_encodes _ 0 oids d rfl]
    refine ⟨PgOutputDecoder.relations_foldl_touch oids d, ?_⟩
    simpa using PgOutputDecoder.noted_foldl_touch hn hk hno
  · exact ⟨rfl, noted_all _ _ _⟩
  · rw [feed_truncate_tag]
    cases hr : readU32 body 0 with
    | none => exact ⟨d.relations_taint, d.noted_taint _ _⟩
    | some n =>
      obtain ⟨j, hbe, hm⟩ := hb n hr
      refine ⟨PgOutputDecoder.relations_truncate body 0 n.toNat d, ?_⟩
      exact PgOutputDecoder.noted_truncate ⟨j, by omega, Nat.zero_le j, hm⟩ d _ _

theorem feed_relation
    (ha : (Sent.relation oid name).Encodes bytes ∨
      (Sent.relation oid name).Malformed toLowercase bytes)
    (hn : Noted d.opened changed returned) :
    ((d.feed toLowercase bytes).2.relations = update d.relations oid (some (toLowercase name)) ∨
      (Sent.relation oid name).Malformed toLowercase bytes ∧
        (d.feed toLowercase bytes).2.relations = d.relations) ∧
      Noted (d.feed toLowercase bytes).2.opened changed
        (returned ++ (d.feed toLowercase bytes).1.toList) := by
  rcases ha with ⟨schema, rest, hs, hna, rfl⟩ | rfl | ⟨body, rfl, hm⟩
  · rw [feed_relation_tag, parseRelation_encodes oid hs hna rest]
    simpa using hn
  · exact ⟨.inr ⟨.inl rfl, rfl⟩, noted_all _ _ _⟩
  · refine ⟨.inr ⟨.inr ⟨body, rfl, hm⟩, ?_⟩, ?_⟩
    · rw [feed_relation_tag, hm]
      exact d.relations_taint
    · rw [feed_relation_tag, hm]
      exact d.noted_taint _ _

theorem feed_begin (ha : Sent.begin.Encodes bytes ∨ Sent.begin.Malformed toLowercase bytes) :
    (d.feed toLowercase bytes).2.relations = d.relations ∧
      Noted (d.feed toLowercase bytes).2.opened [] (d.feed toLowercase bytes).1.toList := by
  rcases ha with ⟨body, rfl⟩ | rfl | ⟨⟨⟩⟩
  · exact ⟨rfl, .inr (.inr (by rintro _ ⟨⟩))⟩
  · exact ⟨rfl, .inl (mem_singleton.mpr rfl)⟩

theorem feed_commit (ha : Sent.commit.Encodes bytes ∨ Sent.commit.Malformed toLowercase bytes)
    (hn : Noted d.opened changed returned) :
    (d.feed toLowercase bytes).2.relations = d.relations ∧
      Sound changed (returned ++ (d.feed toLowercase bytes).1.toList) := by
  rcases ha with ⟨body, rfl⟩ | rfl | ⟨⟨⟩⟩
  · refine ⟨rfl, ?_⟩
    have hr : (d.feed toLowercase (0x43 :: body)).1 =
        if (d.opened.getD ⟨[], false⟩).unknown then some .all
        else if (d.opened.getD ⟨[], false⟩).tables.isEmpty then none
        else some (.tables (d.opened.getD ⟨[], false⟩).tables) := rfl
    rw [hr]
    rcases hn with hal | ⟨tx, hh, hu⟩ | hc
    · exact .inl (mem_append_left _ hal)
    · rw [mem_def.mp hh, getD_some, if_pos hu]
      exact .inl (mem_append_right _ (mem_singleton.mpr rfl))
    · split
      · exact .inl (mem_append_right _ (mem_singleton.mpr rfl))
      · refine .inr fun name hm => ?_
        obtain ⟨tx, hh, hm⟩ := hc name hm
        rw [mem_def.mp hh, if_neg (by simpa using ne_nil_of_mem hm)]
        exact ⟨tx.tables, mem_append_right _ (mem_singleton.mpr rfl), hm⟩
  · exact ⟨rfl, .inl (mem_append_right _ (mem_singleton.mpr rfl))⟩

end Feed

/-! ## Runs -/

namespace Stream

variable {toLowercase : String → String} {s s' : Stream}

/-- The names the decoder has are those last sent, and the open transaction and those
before it are accounted for. -/
structure Tracks (toLowercase : String → String) (s : Stream) : Prop where
  known : ∀ oid k, s.decoder.relations oid = some k → ∀ name, s.names oid = some name →
    k = toLowercase name
  noted : s.inTx = true → Noted s.decoder.opened s.changed s.returned
  sound : ∀ e ∈ s.committed, Sound e.1 e.2

/-- A relation message that cannot be read is about an oid without a name, or with the
name it has already. -/
def Legible (toLowercase : String → String) (s : Stream) (m : Delivery toLowercase) : Prop :=
  match m.sent with
  | .relation oid name => m.sent.Malformed toLowercase m.bytes →
      s.decoder.relations oid = none ∨ s.decoder.relations oid = some (toLowercase name)
  | _ => True

theorem tracks_new : (new).Tracks toLowercase where
  known := by rintro _ _ ⟨⟩
  noted := by rintro ⟨⟩
  sound := by rintro _ ⟨⟩

theorem Tracks.step (h : s.Tracks toLowercase) {m : Delivery
      toLowercase} (hle : Legible toLowercase s m)
    (hs : s.step toLowercase m = some s') : s'.Tracks toLowercase := by
  obtain ⟨sent, bytes, ha⟩ := m
  unfold Stream.step at hs
  dsimp only at hs
  split at hs
  case h_1 hou =>
    cases hs
    obtain ⟨hsa, hn⟩ := feed_begin ha
    exact ⟨fun oid k hf => h.known oid k (hsa ▸ hf), fun _ => hn, h.sound⟩
  case h_2 oid name hi =>
    cases hs
    obtain ⟨hna, hn⟩ := feed_relation ha (h.noted hi)
    refine ⟨fun oid' k hf name' hl => ?_, fun _ => hn, h.sound⟩
    rcases hna with hr | ⟨hma, hsa⟩
    · dsimp only at hf hl
      rw [hr] at hf
      by_cases ho : oid' = oid
      · subst ho
        rw [update_self] at hf hl
        cases hf
        cases hl
        rfl
      · rw [update_of_ne ho] at hf hl
        exact h.known oid' k hf name' hl
    · dsimp only at hf hl
      rw [hsa] at hf
      by_cases ho : oid' = oid
      · subst ho
        rw [update_self] at hl
        cases hl
        rcases hle hma with hab | hal
        · rw [hab] at hf
          cases hf
        · rw [hal] at hf
          exact (Option.some.inj hf).symm
      · rw [update_of_ne ho] at hl
        exact h.known oid' k hf name' hl
  case h_3 oid hi =>
    obtain ⟨name, hl, rfl⟩ := map_eq_some_iff.mp hs
    obtain ⟨hsa, hn⟩ := feed_change ha (fun k hf => h.known oid k hf name hl) (h.noted hi)
    exact ⟨fun oid k hf => h.known oid k (hsa ▸ hf), fun _ => hn, h.sound⟩
  case h_4 oids hi =>
    obtain ⟨names, hl, rfl⟩ := map_eq_some_iff.mp hs
    obtain ⟨hsa, hn⟩ := feed_truncate ha hl h.known (h.noted hi)
    exact ⟨fun oid k hf => h.known oid k (hsa ▸ hf), fun _ => hn, h.sound⟩
  case h_5 hi =>
    cases hs
    obtain ⟨hsa, hso⟩ := feed_commit ha (h.noted hi)
    refine ⟨fun oid k hf => h.known oid k (hsa ▸ hf), by rintro ⟨⟩, fun e hm => ?_⟩
    rcases mem_append.mp hm with hm | hm
    · exact h.sound e hm
    · cases mem_singleton.mp hm
      exact hso
  case h_6 => cases hs

end Stream

/-- No table that a transaction changed is missed. -/
theorem decoder_misses_no_table (toLowercase : String → String) (ms : List (Delivery toLowercase))
    (s : Stream)
    (hlegible : Runs.Along (Stream.step toLowercase) (Stream.Legible toLowercase) .new ms)
    (hran : Runs.run (Stream.step toLowercase) .new ms = some s) :
    ∀ e ∈ s.committed, Sound e.1 e.2 :=
  (Runs.run_invariant_along
    (fun _ _ _ h hok hstepped => Stream.Tracks.step h hok hstepped) Stream.tracks_new hlegible
    hran).sound

/-! ## A name that is not read -/

section Renamed

def beginMessage : Delivery id := ⟨.begin, [0x42], .inl ⟨[], rfl⟩⟩

def relationA : Delivery id :=
  ⟨.relation 1 "a", [0x52, 0, 0, 0, 1, 0, 97, 0], .inl ⟨"", [], by decide, by decide, by decide⟩⟩

def relationBroken : Delivery id :=
  ⟨.relation 1 "b", [0x52, 0, 0, 0, 1], .inr (.inr ⟨[0, 0, 0, 1], rfl, by decide⟩)⟩

def insertOne : Delivery id := ⟨.change 1, [0x49, 0, 0, 0, 1], .inl ⟨0x49, [], .inl rfl, by decide⟩⟩

def commitMessage : Delivery id := ⟨.commit, [0x43], .inl ⟨[], rfl⟩⟩

def insertBroken : Delivery id :=
  ⟨.change 1, [0x49, 0], .inr (.inr ⟨0x49, [0], .inl rfl, rfl, by decide⟩)⟩

/-- A name that breaks off, a change that breaks off, and a transaction that is read. -/
def brokenOff : List (Delivery id) :=
  [beginMessage, relationBroken, insertOne, commitMessage, beginMessage, relationA, insertBroken,
    commitMessage, beginMessage, insertOne, commitMessage]

theorem decoder_misses_no_table_insert : ∃ s : Stream,
    Runs.run (Stream.step id) .new brokenOff = some s ∧
      s.committed = [(["b"], [.all]), (["a"], [.all]), (["a"], [.tables ["a"]])] ∧
      ∀ e ∈ s.committed, Sound e.1 e.2 := by
  refine ⟨_, rfl, rfl, decoder_misses_no_table id brokenOff _ ?_ rfl⟩
  exact .cons trivial rfl <| .cons (fun _ => .inl rfl) rfl <| .cons trivial rfl <|
    .cons trivial rfl <| .cons trivial rfl <| .cons (fun _ => .inl rfl) rfl <| .cons trivial rfl <|
    .cons trivial rfl <| .cons trivial rfl <| .cons trivial rfl <| .cons trivial rfl trivial

/-- The table was renamed in the second transaction, in a message that broke off; the third
invalidates the old name. -/
theorem not_decoder_misses_no_table : ∃ s : Stream,
    Runs.run (Stream.step id) .new [beginMessage, relationA,
      insertOne, commitMessage, beginMessage, relationBroken,
      insertOne, commitMessage, beginMessage, insertOne, commitMessage] = some s ∧
      (["b"], [.tables ["a"]]) ∈ s.committed ∧ ¬ Sound ["b"] [.tables ["a"]] := by
  refine ⟨_, rfl, by decide, ?_⟩
  rintro (hall | hcollected)
  · cases mem_singleton.mp hall
  · obtain ⟨names, hreturned, hmem⟩ := hcollected "b" mem_cons_self
    cases mem_singleton.mp hreturned
    exact absurd hmem (by decide)

end Renamed

end HeliosProxy.Cache.Logical
