import HeliosProxy.Lib.Bytes

/-!
# Relaying a response

A backend's response is a sequence of frames that ends with `ReadyForQuery`, or with the
request for the client's COPY data.  Both relay loops of `relay.rs` walk over the whole
frames in the buffer, hold them back while they are few, write them to the client and
read on.  What the transaction observation and the journal note of a frame is theirs;
they are given the same frames as the tally.
-/

namespace HeliosProxy.Relay

open Wire List Option

/-! ## Frames -/

inductive RelayError
  /-- A frame declares a length below the 4-byte minimum. -/
  | belowMinimum (tag : UInt8) (len : Nat)
  | tooLong (len max : Nat)
  /-- The backend closed mid-response. -/
  | closed
deriving DecidableEq

def declaredLen (rem : Bytes) : Nat := (fromBeBytes ((rem.drop 1).take 4)).toNat

def backendFrameLen (rem : Bytes) (max : Nat) : Except RelayError (Option Nat) :=
  if rem.length < 5 then .ok none
  else if declaredLen rem < 4 then .error (.belowMinimum (rem.headD 0) (declaredLen rem))
  else if min max (2 ^ 64 - 2) < declaredLen rem then .error (.tooLong (declaredLen rem) (min max (2 ^ 64 - 2)))
  else .ok (some (declaredLen rem))

structure WellFormed (max : Nat) (f : Bytes) : Prop where
  header : 5 ≤ f.length
  declared : declaredLen f + 1 = f.length
  within : declaredLen f ≤ max

def readyTag : UInt8 := 90
def copyInTag : UInt8 := 71
def copyBothTag : UInt8 := 87
def idleStatus : UInt8 := 73

def Ends (f : Bytes) : Prop :=
  f.head? = some readyTag ∨ f.head? = some copyInTag ∨ f.head? = some copyBothTag

instance Ends.decidable (f : Bytes) : Decidable (Ends f) :=
  inferInstanceAs (Decidable (_ ∨ _ ∨ _))

/-! ## What is noted of a frame -/

/-- Rust's `parse::<usize>`. -/
def parseUsize (s : List Char) : Option Nat :=
  let digits := if s.head? = some '+' then s.tail else s
  if digits.isEmpty || !digits.all Char.isDigit then none
  else
    let n := digits.foldl (fun n c => 10 * n + (c.toNat - '0'.toNat)) 0
    if n < 2 ^ 64 then some n else none

/-- The row count of a `CommandComplete` tag: the number behind its last space. -/
def commandRows (frame : Bytes) : Option Nat :=
  let tag := frame.drop 5
  if tag.contains 0 then
    match String.fromUTF8? (ByteArray.mk (tag.takeWhile (· != 0)).toArray) with
    | some s => parseUsize (s.toList.reverse.takeWhile (· != ' ')).reverse
    | none => none
  else none

structure Seen where
  /-- The tags `tally_frame` was called with. -/
  tallied : List UInt8
  hadError : Bool
  commandComplete : Bool
  sawAsync : Bool
  rowCount : Nat
deriving DecidableEq

def Seen.nothing : Seen :=
  { tallied := [], hadError := false, commandComplete := false, sawAsync := false, rowCount := 0 }

def Seen.note (s : Seen) (frame : Bytes) : Seen :=
  let tag := frame.headD 0
  { tallied := s.tallied ++ [tag]
    hadError := s.hadError || tag == 69
    commandComplete := s.commandComplete || tag == 67
    sawAsync := s.sawAsync || tag == 65 || tag == 78 || tag == 83
    rowCount := if tag = 67 then (commandRows frame).getD s.rowCount else s.rowCount }

inductive Stop
  /-- More bytes are needed. -/
  | more
  | ready (status : UInt8)
  | copy
deriving DecidableEq

def stopAt (frame : Bytes) : Stop :=
  let tag := frame.headD 0
  if tag = readyTag then .ready (if 6 ≤ frame.length then frame.getD 5 0 else idleStatus)
  else if tag = copyInTag ∨ tag = copyBothTag then .copy
  else .more

/-- The inner loop: over the whole frames of `buf` behind `consumed`. -/
def walk (max : Nat) (buf : Bytes) : Nat → Nat → Seen → Except RelayError (Nat × Seen × Stop)
  | 0, consumed, seen => .ok (consumed, seen, .more)
  | fuel + 1, consumed, seen =>
    let rem := buf.drop consumed
    match backendFrameLen rem max with
    | .error e => .error e
    | .ok none => .ok (consumed, seen, .more)
    | .ok (some len) =>
      if rem.length < len + 1 then .ok (consumed, seen, .more)
      else
        let frame := rem.take (len + 1)
        match stopAt frame with
        | .more => walk max buf fuel (consumed + (len + 1)) (seen.note frame)
        | stop => .ok (consumed + (len + 1), seen.note frame, stop)

/-! ## The loop -/

/-- A relay: the bytes read and not written, how many of them are whole frames held
back and how many may be, and what was written.  `γ` is what a variant keeps of the
bytes it writes. -/
structure RelayState (γ : Type) where
  buf : Bytes
  held : Nat
  hold : Nat
  sent : Nat
  written : Bytes
  seen : Seen
  kept : γ

variable {γ : Type} (keep : γ → Bytes → γ)

def publish (r : RelayState γ) (consumed : Nat) (stop : Stop) : RelayState γ :=
  if (stop ≠ .more ∨ r.hold < consumed) ∧ 0 < consumed then
    { r with
      buf := r.buf.drop consumed
      held := 0
      hold := 0
      sent := r.sent + consumed
      written := r.written ++ r.buf.take consumed
      kept := keep r.kept (r.buf.take consumed) }
  else if stop = .more ∧ consumed ≤ r.hold then { r with held := consumed }
  else r

def relayLoop (max : Nat) : RelayState γ → List Bytes → Except RelayError (RelayState γ × Stop × List Bytes)
  | r, chunks =>
    match walk max r.buf (r.buf.length + 1) r.held r.seen with
    | .error e => .error e
    | .ok (consumed, seen, stop) =>
      let r' := publish keep { r with seen } consumed stop
      match stop, chunks with
      | .more, [] => .error .closed
      | .more, chunk :: chunks =>
        if chunk.isEmpty then .error .closed
        else relayLoop max { r' with buf := r'.buf ++ chunk } chunks
      | stop, chunks => .ok (r', stop, chunks)

def RelayState.start (buf : Bytes) (hold : Nat) (kept : γ) : RelayState γ :=
  { buf, held := 0, hold, sent := 0, written := [], seen := .nothing, kept }

def streamUntilReadyBuffered (max hold : Nat) (buf : Bytes) (chunks : List Bytes) :
    Except RelayError (RelayState Unit × Stop × List Bytes) :=
  relayLoop (fun _ _ => ()) max (.start buf hold ()) chunks

/-- The copy of a response for the caches; given up once it outgrows the bound. -/
structure Capture where
  captured : Bytes
  oversize : Bool
deriving DecidableEq

def Capture.extend (maxCaptureBytes : Nat) (c : Capture) (bytes : Bytes) : Capture :=
  if c.oversize then c
  else if maxCaptureBytes < c.captured.length + bytes.length then { captured := [], oversize := true }
  else { c with captured := c.captured ++ bytes }

def streamUntilReadyCaptureBuffered (max hold maxCaptureBytes : Nat) (buf : Bytes) (chunks : List Bytes) :
    Except RelayError (RelayState Capture × Stop × List Bytes) :=
  relayLoop (Capture.extend maxCaptureBytes) max (.start buf hold { captured := [], oversize := false }) chunks

/-- What the capture variant returns as `cacheable`. -/
def cacheable (r : RelayState Capture) : Stop → Bool
  | .ready status => !r.seen.hadError && status == idleStatus && !r.seen.sawAsync && !r.kept.oversize
  | _ => false

/-! ## The walk finds the frames -/

variable {f : Bytes}

theorem declaredLen_append (hf : 5 ≤ f.length) (y : Bytes) :
    declaredLen (f ++ y) = declaredLen f := by
  rw [declaredLen, declaredLen, drop_append_of_le_length (by omega),
    take_append_of_le_length (by rw [length_drop]; omega)]

theorem declaredLen_lt (f : Bytes) : declaredLen f < 2 ^ 32 := UInt32.toNat_lt _

variable {max : Nat} {rem : Bytes}

theorem backendFrameLen_of_start (hf : WellFormed max f) (hrem : 5 ≤ rem.length)
    (hlen : declaredLen rem = declaredLen f) : backendFrameLen rem max = .ok (some (declaredLen f)) := by
  have hwithin := hf.within
  have hmin : 4 ≤ declaredLen f := by
    have hheader := hf.header
    have hdeclared := hf.declared
    omega
  have hword := declaredLen_lt f
  rw [backendFrameLen, hlen, if_neg (by omega), if_neg (by omega), if_neg (by omega)]

theorem whole_or_part {more y : Bytes} (hf : WellFormed max f) (h : rem ++ more = f ++ y) :
    (∃ rem', rem = f ++ rem' ∧ rem' ++ more = y ∧
        backendFrameLen rem max = .ok (some (declaredLen f))) ∨
      (rem.length < f.length ∧
        (backendFrameLen rem max = .ok none ∨
          backendFrameLen rem max = .ok (some (declaredLen f)))) := by
  rcases append_eq_append_iff.1 h with ⟨t, hft, hmore⟩ | ⟨rem', hrem, hy⟩
  · -- what was read is a front of the frame
    by_cases ht : t = []
    · subst ht
      rw [List.append_nil] at hft
      subst hft
      exact .inl ⟨[], by simp, hmore, backendFrameLen_of_start hf hf.header rfl⟩
    · right
      have hshort : rem.length < f.length := by
        rw [hft, length_append]
        have := length_pos_of_ne_nil ht
        omega
      refine ⟨hshort, ?_⟩
      by_cases hheader : rem.length < 5
      · exact .inl (by rw [backendFrameLen, if_pos hheader])
      · refine .inr (backendFrameLen_of_start hf (by omega) ?_)
        rw [hft, declaredLen_append (by omega)]
  · left
    refine ⟨rem', hrem, hy.symm, backendFrameLen_of_start hf ?_ ?_⟩
    · have hheader := hf.header
      rw [hrem, length_append]
      omega
    · rw [hrem, declaredLen_append hf.header]

theorem stopAt_eq_more (hf : f ≠ []) : stopAt f = .more ↔ ¬ Ends f := by
  cases f with
  | nil => exact absurd rfl hf
  | cons tag f =>
    simp only [stopAt, Ends]
    by_cases hready : tag = readyTag
    · simp [hready]
    · by_cases hcopy : tag = copyInTag ∨ tag = copyBothTag
      · simp [hready]
      · simp [hready]

theorem WellFormed.ne_nil (hf : WellFormed max f) : f ≠ [] := by
  rintro rfl
  exact absurd hf.header (by decide)

variable {fuel consumed : Nat} {buf : Bytes} {seen : Seen}

theorem walk_whole {max : Nat} {f rem' : Bytes} (hf : WellFormed max f)
    (hrem : buf.drop consumed = f ++ rem')
    (hlen : backendFrameLen (f ++ rem') max = .ok (some (declaredLen f))) :
    walk max buf (fuel + 1) consumed seen =
      match stopAt f with
      | .more => walk max buf fuel (consumed + f.length) (seen.note f)
      | stop => .ok (consumed + f.length, seen.note f, stop) := by
  have hdeclared := hf.declared
  have hfits : ¬ (f ++ rem').length < declaredLen f + 1 := by
    rw [length_append]
    omega
  have htake : (f ++ rem').take (declaredLen f + 1) = f := by rw [hdeclared, take_left]
  rw [walk, hrem]
  simp only [hlen, hfits, if_false, htake]
  rw [hdeclared]

theorem walk_part (hf : WellFormed max f)
    (hshort : (buf.drop consumed).length < f.length)
    (hlen : backendFrameLen (buf.drop consumed) max = .ok none ∨
      backendFrameLen (buf.drop consumed) max = .ok (some (declaredLen f))) :
    walk max buf (fuel + 1) consumed seen = .ok (consumed, seen, .more) := by
  have hdeclared := hf.declared
  rw [walk]
  rcases hlen with hlen | hlen
  · simp only [hlen]
  · simp only [hlen]
    rw [if_pos (by omega)]

/-- A response: frames at which it does not end, and one at which it does. -/
structure Response (max : Nat) (frames : List Bytes) (last : Bytes) : Prop where
  inner : ∀ f ∈ frames, WellFormed max f ∧ ¬ Ends f
  closing : WellFormed max last
  ends : Ends last

def whole (frames : List Bytes) (last : Bytes) : List Bytes := frames ++ [last]

variable {last : Bytes}

theorem Response.tail {fs : List Bytes} (h : Response max (f :: fs) last) :
    Response max fs last :=
  ⟨fun g hg => h.inner g (mem_cons_of_mem f hg), h.closing, h.ends⟩

theorem Response.drop {as bs : List Bytes} (h : Response max (as ++ bs) last) :
    Response max bs last :=
  ⟨fun g hg => h.inner g (mem_append_right as hg), h.closing, h.ends⟩

variable {frames : List Bytes}

/-- The walk over a part of a response: it reaches the end, or the whole frames that
have been read. -/
theorem walk_response {more tail : Bytes} (seen : Seen)
    (h : Response max frames last)
    (hrem : buf.drop consumed ++ more = (whole frames last).flatten ++ tail)
    (hfuel : (buf.drop consumed).length < fuel) :
    (∃ left, buf.drop consumed = (whole frames last).flatten ++ left ∧
        walk max buf fuel consumed seen =
          .ok (consumed + (whole frames last).flatten.length, (whole frames last).foldl Seen.note seen,
            stopAt last)) ∨
      ∃ as bs left, frames = as ++ bs ∧ buf.drop consumed = as.flatten ++ left ∧
        left.length < (whole bs last).flatten.length ∧
        walk max buf fuel consumed seen =
          .ok (consumed + as.flatten.length, as.foldl Seen.note seen, .more) := by
  induction frames generalizing fuel consumed seen with
  | nil =>
    obtain ⟨fuel, rfl⟩ := Nat.exists_eq_succ_of_ne_zero (ne_zero_of_lt hfuel)
    have hlast : (whole [] last).flatten = last := by simp [whole]
    rw [hlast] at hrem ⊢
    rcases whole_or_part h.closing hrem with ⟨rem', hbuf, -, hlen⟩ | ⟨hshort, hlen⟩
    · refine .inl ⟨rem', hbuf, ?_⟩
      rw [hbuf] at hlen
      rw [walk_whole h.closing hbuf hlen]
      have hstop := mt (stopAt_eq_more h.closing.ne_nil).1 (not_not_intro h.ends)
      split
      next hmore => exact absurd hmore hstop
      next => rfl
    · refine .inr ⟨[], [], buf.drop consumed, rfl, rfl, ?_, walk_part h.closing hshort hlen⟩
      rwa [hlast]
  | cons f fs ih =>
    obtain ⟨fuel, rfl⟩ := Nat.exists_eq_succ_of_ne_zero (ne_zero_of_lt hfuel)
    obtain ⟨hf, hmore⟩ := h.inner f mem_cons_self
    have hflatten : (whole (f :: fs) last).flatten = f ++ (whole fs last).flatten := rfl
    rw [hflatten, append_assoc] at hrem
    rcases whole_or_part hf hrem with ⟨rem', hbuf, hrest, hlen⟩ | ⟨hshort, hlen⟩
    · rw [hbuf] at hlen
      have hdrop : buf.drop (consumed + f.length) = rem' := by
        rw [← drop_drop, hbuf, drop_left]
      have hwalk : walk max buf (fuel + 1) consumed seen =
          walk max buf fuel (consumed + f.length) (seen.note f) := by
        rw [walk_whole hf hbuf hlen, (stopAt_eq_more hf.ne_nil).2 hmore]
      rw [hwalk]
      have hroom : rem'.length < fuel := by
        have hpos := length_pos_of_ne_nil hf.ne_nil
        rw [hbuf, length_append] at hfuel
        omega
      rcases @ih fuel (consumed + f.length) (seen.note f) h.tail (by rw [hdrop]; exact hrest)
          (by rw [hdrop]; exact hroom) with ⟨left, hleft, hdone⟩ | ⟨as, bs, left, rfl, hleft, hshort, hdone⟩
      · refine .inl ⟨left, by rw [hbuf, ← hdrop, hleft, hflatten, append_assoc], ?_⟩
        rw [hdone, hflatten, length_append, add_assoc]
        rfl
      · refine .inr ⟨f :: as, bs, left, rfl, ?_, hshort, ?_⟩
        · rw [hbuf, ← hdrop, hleft, flatten_cons, append_assoc]
        · rw [hdone, flatten_cons, length_append, add_assoc, foldl_cons]
    · refine .inr ⟨[], f :: fs, buf.drop consumed, rfl, rfl, ?_, walk_part hf hshort hlen⟩
      rw [hflatten, length_append]
      omega

/-! ## The loop writes them -/

section Loop

variable {keep} {of : Bytes → γ} {max : Nat}

/-- The relay between two turns: what it wrote is accounted for, and what a variant
keeps is a function of it. -/
structure Accounted (of : Bytes → γ) (r : RelayState γ) : Prop where
  held : r.held ≤ r.buf.length
  sent : r.sent = r.written.length
  kept : r.kept = of r.written

def passed (r : RelayState γ) : Bytes := r.written ++ r.buf.take r.held

variable {r : RelayState γ}

theorem publish_accounted (hof : ∀ w b, of (w ++ b) = keep (of w) b)
    (h : Accounted of r) (hconsumed : consumed ≤ r.buf.length) :
    Accounted of (publish keep r consumed .more) ∧
      passed (publish keep r consumed .more) = r.written ++ r.buf.take consumed ∧
      (publish keep r consumed .more).buf.drop (publish keep r consumed .more).held = r.buf.drop consumed ∧
      (publish keep r consumed .more).seen = r.seen := by
  have hlength : (r.buf.take consumed).length = consumed := length_take_of_le hconsumed
  by_cases hpublish : r.hold < consumed
  · rw [publish, if_pos ⟨.inr hpublish, by omega⟩]
    refine ⟨⟨Nat.zero_le _, ?_, ?_⟩, ?_, rfl, rfl⟩
    · simp [h.sent, hlength]
    · dsimp only
      rw [hof, h.kept]
    · simp [passed]
  · rw [publish, if_neg (by simp [hpublish]), if_pos ⟨rfl, by omega⟩]
    exact ⟨⟨hconsumed, h.sent, h.kept⟩, rfl, rfl, rfl⟩

/-- The relay behind the frames `fs`, with `left` still in its buffer. -/
def RelayState.behind (of : Bytes → γ) (r : RelayState γ) (fs : List Bytes) (left : Bytes) : RelayState γ :=
  { buf := left
    held := 0
    hold := 0
    sent := (passed r ++ fs.flatten).length
    written := passed r ++ fs.flatten
    seen := fs.foldl Seen.note r.seen
    kept := of (passed r ++ fs.flatten) }

theorem take_add {fs left : Bytes} {held : Nat} (h : buf.drop held = fs ++ left) :
    buf.take (held + fs.length) = buf.take held ++ fs ∧ buf.drop (held + fs.length) = left := by
  rw [List.take_add, ← drop_drop, h, take_left, drop_left]
  exact ⟨rfl, rfl⟩

def RelayState.read (r : RelayState γ) (chunk : Bytes) : RelayState γ := { r with buf := r.buf ++ chunk }

variable {chunk : Bytes}

theorem RelayState.drop_read (r : RelayState γ) (h : r.held ≤ r.buf.length) :
    (r.read chunk).buf.drop (r.read chunk).held = r.buf.drop r.held ++ chunk :=
  drop_append_of_le_length h

theorem RelayState.passed_read (r : RelayState γ) (h : r.held ≤ r.buf.length) :
    passed (r.read chunk) = passed r :=
  congrArg (r.written ++ ·) (take_append_of_le_length h)

theorem Accounted.read (h : Accounted of r) (chunk : Bytes) : Accounted of (r.read chunk) where
  held := le_trans h.held (by simp [RelayState.read])
  sent := h.sent
  kept := h.kept

theorem relayLoop_ends (hof : ∀ w b, of (w ++ b) = keep (of w) b)
    {last left : Bytes} (hr : Accounted of r) (h : Response max frames last)
    (hbuf : r.buf.drop r.held = (whole frames last).flatten ++ left)
    (hwalk : walk max r.buf (r.buf.length + 1) r.held r.seen =
      .ok (r.held + (whole frames last).flatten.length, (whole frames last).foldl Seen.note r.seen,
        stopAt last)) (chunks : List Bytes) :
    relayLoop keep max r chunks = .ok (r.behind of (whole frames last) left, stopAt last, chunks) := by
  have hstop := mt (stopAt_eq_more h.closing.ne_nil).1 (not_not_intro h.ends)
  have hpos : 0 < r.held + (whole frames last).flatten.length := by
    have hheader := h.closing.header
    have hlast : last.length ≤ (whole frames last).flatten.length := by
      simp [whole]
    omega
  obtain ⟨htake, hdrop⟩ := take_add hbuf
  have hpublish : publish keep { r with seen := (whole frames last).foldl Seen.note r.seen }
      (r.held + (whole frames last).flatten.length) (stopAt last) = r.behind of (whole frames last) left := by
    have hlength : r.sent + (r.held + (whole frames last).flatten.length) =
        (passed r ++ (whole frames last).flatten).length := by
      have htaken : (r.buf.take r.held).length = r.held := length_take_of_le hr.held
      rw [passed, length_append, length_append, hr.sent]
      omega
    rw [publish, if_pos ⟨.inl hstop, hpos⟩]
    rw [htake, hdrop, hlength, hr.kept, ← hof, ← append_assoc]
    rfl
  rw [relayLoop, hwalk]
  dsimp only
  rw [hpublish]
  cases hlast : stopAt last with
  | more => exact absurd hlast hstop
  | ready status | copy => rfl

theorem relayLoop_response (hof : ∀ w b, of (w ++ b) = keep (of w) b) {chunks : List Bytes}
    {last tail : Bytes} (hr : Accounted of r) (h : Response max frames last)
    (hchunks : ∀ c ∈ chunks, c ≠ [])
    (hrem : r.buf.drop r.held ++ chunks.flatten = (whole frames last).flatten ++ tail) :
    ∃ reads rest left, chunks = reads ++ rest ∧
      r.buf.drop r.held ++ reads.flatten = (whole frames last).flatten ++ left ∧
      relayLoop keep max r chunks = .ok (r.behind of (whole frames last) left, stopAt last, rest) := by
  have hroom : (r.buf.drop r.held).length < r.buf.length + 1 := by
    rw [length_drop]
    omega
  induction chunks generalizing r frames with
  | nil =>
    rcases walk_response r.seen h hrem hroom with
      ⟨left, hbuf, hwalk⟩ | ⟨as, bs, left, rfl, hbuf, hshort, -⟩
    · exact ⟨[], [], left, rfl, by simpa using hbuf, relayLoop_ends hof hr h hbuf hwalk []⟩
    · -- the response would have to go on
      have hlength := congrArg List.length hrem
      rw [hbuf] at hlength
      simp only [whole, flatten_append, length_append, flatten_nil, length_nil]
        at hlength hshort
      omega
  | cons chunk chunks ih =>
    rcases walk_response r.seen h hrem hroom with
      ⟨left, hbuf, hwalk⟩ | ⟨as, bs, left, rfl, hbuf, hshort, hwalk⟩
    · exact ⟨[], chunk :: chunks, left, rfl, by simpa using hbuf, relayLoop_ends hof hr h hbuf hwalk _⟩
    · obtain ⟨hchunk, hrest⟩ := forall_mem_cons.1 hchunks
      obtain ⟨htake, hdrop⟩ := take_add hbuf
      have hconsumed : r.held + as.flatten.length ≤ r.buf.length := by
        have hlength := congrArg List.length hbuf
        rw [length_drop, length_append] at hlength
        have hheld := hr.held
        omega
      have hstart : Accounted of { r with seen := as.foldl Seen.note r.seen } := ⟨hr.held, hr.sent, hr.kept⟩
      obtain ⟨hr', hpassed, hbuf', hseen⟩ := publish_accounted hof hstart hconsumed
      have hturn : relayLoop keep max r (chunk :: chunks) =
          relayLoop keep max (RelayState.read (publish keep { r with seen := as.foldl Seen.note r.seen }
            (r.held + as.flatten.length) .more) chunk) chunks := by
        rw [relayLoop, hwalk]
        dsimp only
        rw [if_neg (by simpa using hchunk)]
        rfl
      generalize publish keep { r with seen := as.foldl Seen.note r.seen }
        (r.held + as.flatten.length) .more = r' at hr' hpassed hbuf' hseen hturn
      rw [htake, ← append_assoc] at hpassed
      rw [hdrop] at hbuf'
      have hflatten : (whole (as ++ bs) last).flatten = as.flatten ++ (whole bs last).flatten := by
        simp [whole]
      have hnext : (r'.read chunk).buf.drop (r'.read chunk).held ++ chunks.flatten =
          (whole bs last).flatten ++ tail := by
        rw [hbuf, hflatten, append_assoc, append_assoc] at hrem
        rw [r'.drop_read hr'.held, hbuf', append_assoc]
        exact append_cancel_left hrem
      obtain ⟨reads, rest, left', hreads, hleft, hdone⟩ :=
        ih (hr'.read chunk) h.drop hrest hnext (by rw [length_drop]; omega)
      refine ⟨chunk :: reads, rest, left', by rw [hreads]; rfl, ?_, ?_⟩
      · rw [r'.drop_read hr'.held, hbuf', append_assoc] at hleft
        rw [hbuf, hflatten, flatten_cons, append_assoc, append_assoc, hleft]
      · have hbehind : (r'.read chunk).behind of (whole bs last) left' =
            r.behind of (whole (as ++ bs) last) left' := by
          have hsame : passed (r'.read chunk) ++ (whole bs last).flatten =
              passed r ++ (whole (as ++ bs) last).flatten := by
            rw [r'.passed_read hr'.held, hpassed, hflatten, ← append_assoc]
            rfl
          have hall : (whole bs last).foldl Seen.note (r'.read chunk).seen =
              (whole (as ++ bs) last).foldl Seen.note r.seen := by
            have hread : (r'.read chunk).seen = as.foldl Seen.note r.seen := hseen
            rw [whole, whole, append_assoc, foldl_append (l := as), hread]
          rw [RelayState.behind, RelayState.behind, hsame, hall]
        rw [hturn, hdone, hbehind]

end Loop

/-! ## Both variants -/

def Capture.of (maxCaptureBytes : Nat) (w : Bytes) : Capture :=
  if w.length ≤ maxCaptureBytes then { captured := w, oversize := false }
  else { captured := [], oversize := true }

theorem Capture.of_append (m : Nat) (w b : Bytes) :
    Capture.of m (w ++ b) = (Capture.of m w).extend m b := by
  unfold Capture.of Capture.extend
  by_cases hw : w.length ≤ m
  · by_cases hb : w.length + b.length ≤ m
    · simp [hw, hb]
    · simp [hw, hb]
  · have hb : ¬ w.length + b.length ≤ m := by omega
    simp [hw, hb]

theorem tallied_foldl (fs : List Bytes) (seen : Seen) :
    (fs.foldl Seen.note seen).tallied = seen.tallied ++ fs.map (·.headD 0) := by
  induction fs generalizing seen with
  | nil => simp
  | cons f fs ih =>
    rw [foldl_cons, ih]
    simp [Seen.note]

def RelayState.forget (r : RelayState γ) : RelayState Unit := { r with kept := () }

theorem forget_publish (r : RelayState γ) (consumed : Nat) (stop : Stop) :
    publish (fun _ _ => ()) r.forget consumed stop = (publish keep r consumed stop).forget := by
  have hhold : r.forget.hold = r.hold := rfl
  rw [publish, publish, hhold]
  by_cases hwrite : (stop ≠ .more ∨ r.hold < consumed) ∧ 0 < consumed
  · rw [if_pos hwrite, if_pos hwrite]
    rfl
  · rw [if_neg hwrite]
    split <;> rfl

theorem relayLoop_forget (max : Nat) (r : RelayState γ) (chunks : List Bytes) :
    relayLoop (fun _ _ => ()) max r.forget chunks =
      (relayLoop keep max r chunks).map fun (r, stop, rest) => (r.forget, stop, rest) := by
  induction chunks generalizing r with
  | nil =>
    rw [relayLoop, relayLoop]
    have hsame : walk max r.forget.buf (r.forget.buf.length + 1) r.forget.held r.forget.seen =
        walk max r.buf (r.buf.length + 1) r.held r.seen := rfl
    rw [hsame]
    cases walk max r.buf (r.buf.length + 1) r.held r.seen with
    | error e => rfl
    | ok v =>
      obtain ⟨consumed, seen, stop⟩ := v
      have hpublish := forget_publish keep { r with seen } consumed stop
      cases stop with
      | more => rfl
      | ready status => exact congrArg (fun r' => Except.ok (r', Stop.ready status, [])) hpublish
      | copy => exact congrArg (fun r' => Except.ok (r', Stop.copy, [])) hpublish
  | cons chunk chunks ih =>
    rw [relayLoop, relayLoop]
    have hsame : walk max r.forget.buf (r.forget.buf.length + 1) r.forget.held r.forget.seen =
        walk max r.buf (r.buf.length + 1) r.held r.seen := rfl
    rw [hsame]
    cases walk max r.buf (r.buf.length + 1) r.held r.seen with
    | error e => rfl
    | ok v =>
      obtain ⟨consumed, seen, stop⟩ := v
      have hpublish := forget_publish keep { r with seen } consumed stop
      cases stop with
      | more =>
        dsimp only
        by_cases hempty : chunk.isEmpty
        · rw [if_pos hempty, if_pos hempty]
          rfl
        · rw [if_neg hempty, if_neg hempty, ← ih]
          exact congrArg (fun r' => relayLoop (fun _ _ => ()) max (RelayState.read r' chunk) chunks) hpublish
      | ready status => exact congrArg (fun r' => Except.ok (r', Stop.ready status, _)) hpublish
      | copy => exact congrArg (fun r' => Except.ok (r', Stop.copy, _)) hpublish

/-- One variant relayed the bytes of the frames `fs`: it wrote exactly them,
tallied each frame once, counted the bytes, and left `left` in its buffer. -/
structure Relayed (r : RelayState γ) (fs : List Bytes) (left : Bytes) : Prop where
  written : r.written = fs.flatten
  tallied : r.seen.tallied = fs.map (·.headD 0)
  sent : r.sent = fs.flatten.length
  buf : r.buf = left

/-- Both variants relay the frames `fs` and stop there, with the same reads; what they
read behind the frames stays in their buffers.  The capture is the response, unless that
is too long; then it is not cacheable. -/
def RelaysExactly (max hold maxCaptureBytes : Nat) (buf : Bytes) (chunks fs : List Bytes) : Prop :=
  ∃ reads rest left stop plain capture, chunks = reads ++ rest ∧
    buf ++ reads.flatten = fs.flatten ++ left ∧
    streamUntilReadyBuffered max hold buf chunks = .ok (plain, stop, rest) ∧
    streamUntilReadyCaptureBuffered max hold maxCaptureBytes buf chunks = .ok (capture, stop, rest) ∧
    Relayed plain fs left ∧ Relayed capture fs left ∧
    (fs.flatten.length ≤ maxCaptureBytes → capture.kept.captured = fs.flatten) ∧
    (maxCaptureBytes < fs.flatten.length → cacheable capture stop = false)

/-- However the stream is cut into reads, whatever of it was in the buffer and however
much is held back, both variants relay exactly the response. -/
theorem relaysExactly_of_response {max hold maxCaptureBytes : Nat} {buf last tail : Bytes}
    {chunks frames : List Bytes} (h : Response max frames last) (hchunks : ∀ c ∈ chunks, c ≠ [])
    (hstream : buf ++ chunks.flatten = (frames ++ [last]).flatten ++ tail) :
    RelaysExactly max hold maxCaptureBytes buf chunks (frames ++ [last]) := by
  have hstart : Accounted (Capture.of maxCaptureBytes) (.start buf hold { captured := [], oversize := false }) :=
    ⟨Nat.zero_le _, rfl, by simp [RelayState.start, Capture.of]⟩
  obtain ⟨reads, rest, left, hreads, hleft, hrun⟩ :=
    relayLoop_response (Capture.of_append maxCaptureBytes) hstart h hchunks hstream
  have hforget := relayLoop_forget (Capture.extend maxCaptureBytes) max
    (.start buf hold { captured := [], oversize := false }) chunks
  rw [hrun] at hforget
  have htally : ∀ seen : Seen, seen = (whole frames last).foldl Seen.note .nothing →
      seen.tallied = (frames ++ [last]).map (·.headD 0) := by
    rintro seen rfl
    exact tallied_foldl (whole frames last) .nothing
  refine ⟨reads, rest, left, _, _, _, hreads, hleft, hforget, hrun, ⟨rfl, htally _ rfl, rfl, rfl⟩,
    ⟨rfl, htally _ rfl, rfl, rfl⟩, ?_, ?_⟩
  · intro hfits
    have hkept : (Capture.of maxCaptureBytes (frames ++ [last]).flatten).captured = (frames ++ [last]).flatten := by
      rw [Capture.of, if_pos hfits]
    exact hkept
  · intro hlong
    have hkept : (Capture.of maxCaptureBytes (frames ++ [last]).flatten).oversize = true := by
      rw [Capture.of, if_neg (not_le.2 hlong)]
    cases hstop : stopAt last with
    | more | copy => rfl
    | ready status =>
      rw [cacheable]
      have hoversize : (RelayState.behind (Capture.of maxCaptureBytes)
          (.start buf hold { captured := [], oversize := false }) (whole frames last) left).kept.oversize = true :=
        hkept
      rw [hoversize, Bool.not_true, Bool.and_false]

/-- A row and `ReadyForQuery` in three reads, with a frame cut twice and two bytes of the
next response behind them. -/
theorem relaysExactly_of_row :
    RelaysExactly 100 8 11 [68, 0, 0] [[0, 5], [7, 90, 0], [0, 0, 5, 73, 1], [2]]
      [[68, 0, 0, 0, 5, 7], [90, 0, 0, 0, 5, 73]] := by
  have h : Response 100 [[68, 0, 0, 0, 5, 7]] [90, 0, 0, 0, 5, 73] := by
    refine ⟨?_, ⟨by decide, by decide, by decide⟩, by decide⟩
    intro f hf
    rw [mem_singleton.1 hf]
    exact ⟨⟨by decide, by decide, by decide⟩, by decide⟩
  have hstream : List.append (α := UInt8) [68, 0, 0]
        (List.flatten [[0, 5], [7, 90, 0], [0, 0, 5, 73, 1], [2]])
      = List.append (List.flatten ([[68, 0, 0, 0, 5, 7]] ++ [[90, 0, 0, 0, 5, 73]])) [1, 2] := rfl
  exact relaysExactly_of_response h (by decide) hstream

end HeliosProxy.Relay
