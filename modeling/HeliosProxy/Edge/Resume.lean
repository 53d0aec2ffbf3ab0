import HeliosProxy.Edge.EdgeRole

/-!
# Warm resumption

The home numbers the invalidations it broadcasts and keeps the last of them.  An edge
that comes back with the number it has got to is sent what it has missed and keeps its
cache (`warm`), or is told that there is a gap and flushes it.

The edge moves its cursor to the end of what is replayed as soon as it reads the marker
in front of it, and to the number of an event as soon as it reads its `id` line.  If the
stream breaks before the events themselves have come, they are at or below the cursor
and are not sent again.  Where it breaks between the frames, and not within a replay, what
has not come is above the cursor.
-/

namespace HeliosProxy.Edge

open List Option

open Text (Str)

/-- `InvalidationEvent`, with its offset apart. -/
structure StreamEvent where
  seq : Nat
  event : HomeEvent
deriving DecidableEq

structure InvalidationLog where
  nextSeq : Nat
  history : List StreamEvent
  cap : Nat
deriving DecidableEq

inductive Resume
  | warm (replayed : List StreamEvent) (upto : Nat)
  | gap (upto : Nat)
deriving DecidableEq

namespace InvalidationLog

def record (log : InvalidationLog) (ev : HomeEvent) : StreamEvent × InvalidationLog :=
  let e : StreamEvent := ⟨log.nextSeq, ev⟩
  let history := log.history ++ [e]
  (e, { log with nextSeq := log.nextSeq + 1, history := history.drop (history.length - log.cap) })

/-- `resume` for a cursor of this boot; the channel has room for what is replayed. -/
def resume (log : InvalidationLog) (cursor : Nat) : Resume :=
  let upto := log.nextSeq - 1
  if log.nextSeq = 0 then .gap upto
  else if upto ≤ cursor then .warm [] upto
  else
    match log.history.head? with
    | some first =>
      if first.seq ≤ cursor + 1 then
        let replay := log.history.filter fun e => cursor < e.seq
        if 60 ≤ replay.length then .gap upto else .warm replay upto
      else .gap upto
    | none => .gap upto

end InvalidationLog

/-! ## The stream -/

/-- What a `data` line holds.  The hello frame is no event of the log. -/
inductive Payload
  | hello (ev : HomeEvent)
  | event (e : StreamEvent)
deriving DecidableEq

inductive Line
  | marker (warm : Bool) (upto : Nat)
  | id (n : Nat)
  | data (p : Payload)
  | blank
  /-- An `event` line, or the comment of a heartbeat. -/
  | other
deriving DecidableEq

def markerFrame : Resume → List Line
  | .warm _ upto => [.marker true upto, .blank]
  | .gap upto => [.marker false upto, .blank]

def helloFrame (ev : HomeEvent) : List Line := [.other, .data (.hello ev), .blank]

/-- The first event has the offset 0 and is sent without an `id` line. -/
def eventFrame (e : StreamEvent) : List Line :=
  if 0 < e.seq then [.other, .id e.seq, .data (.event e), .blank]
    else [.other, .data (.event e), .blank]

def heartbeatFrame : List Line := [.other, .blank]

structure SseParser where
  dataLines : List Payload
  lastId : Option Nat
  resume : Option (Bool × Nat)
deriving DecidableEq

namespace SseParser

def start : SseParser := ⟨[], none, none⟩

/-- `process_line`, with the payloads of the events completed so far. -/
def processLine (p : SseParser × List Payload) : Line → SseParser × List Payload
  | .marker warm upto => ({ p.1 with resume := some (warm, upto) }, p.2)
  | .id n => ({ p.1 with lastId := some n }, p.2)
  | .data x => ({ p.1 with dataLines := p.1.dataLines ++ [x] }, p.2)
  | .blank =>
    match p.1.dataLines with
    | [] => p
    | [x] => ({ p.1 with dataLines := [] }, p.2 ++ [x])
    -- several lines joined are no payload
    | _ => ({ p.1 with dataLines := [] }, p.2)
  | .other => p

/-- `feed`, for the lines a chunk completes. -/
def feed (p : SseParser) (ls : List Line) : SseParser × List Payload := ls.foldl processLine (p, [])

end SseParser

/-! ## The home and the edge -/

structure Stream where
  /-- The response has come, and the edge reads the stream. -/
  opened : Bool
  /-- The number of events broadcast before it was registered. -/
  since : Nat
  /-- The lines that have not come yet. -/
  lines : List Line
  parser : SseParser
deriving DecidableEq

/-- The parser, its marker taken, behind a chunk of `n` lines, and what the chunk completes. -/
def Stream.feed (st : Stream) (n : Nat) : SseParser × List Payload :=
  { st.parser with resume := none }.feed (st.lines.take n)

structure ResumeState where
  log : InvalidationLog
  stream : Option Stream
  cursor : Option Nat
  applied : List StreamEvent
  /-- For each flush the number of events broadcast before it. -/
  flushes : List Nat
deriving DecidableEq

inductive ResumeStep
  | broadcast (ev : HomeEvent)
  | heartbeat
  /-- `register_at`; the home may have no cache to say hello from. -/
  | register (hello : Option HomeEvent)
  | opened
  /-- A chunk that completes `n` more lines. -/
  | chunk (n : Nat)
  | disconnect

namespace ResumeState

def start (cap : Nat) : ResumeState := ⟨⟨0, [], cap⟩, none, none, [], []⟩

def flushAll (s : ResumeState) : ResumeState := { s with flushes := s.log.nextSeq :: s.flushes }

def send (s : ResumeState) (ls : List Line) : ResumeState :=
  { s with stream := s.stream.map fun st => { st with lines := st.lines ++ ls } }

def broadcast (s : ResumeState) (ev : HomeEvent) : ResumeState :=
  let (e, log) := s.log.record ev
  { s with log := log }.send (eventFrame e)

def registerAt (s : ResumeState) : Resume :=
  match s.cursor with
  | some c => s.log.resume c
  | none => .gap 0

def replayed : Resume → List StreamEvent
  | .warm es _ => es
  | .gap _ => []

def register (s : ResumeState) (hello : Option HomeEvent) : ResumeState :=
  { s with
    stream := some ⟨false, s.log.nextSeq, markerFrame s.registerAt ++ (hello.elim [] helloFrame) ++
      (replayed s.registerAt).flatMap eventFrame, .start⟩ }

/-- The resume marker of `pump_stream`. -/
def takeResume (s : ResumeState) (st : Stream) : ResumeState :=
  match st.parser.resume with
  | none => s
  | some (true, upto) => { s with cursor := some upto }
  | some (false, upto) => { s with cursor := some upto }.flushAll

def events (ps : List Payload) : List StreamEvent :=
  ps.filterMap fun
    | .hello _ => none
    | .event e => some e

/-- A round of `pump_stream`. -/
def pump (s : ResumeState) (st : Stream) (n : Nat) : ResumeState :=
  let s := s.takeResume st
  let fed := st.feed n
  { s with
    stream := some ⟨true, st.since, st.lines.drop n, fed.1⟩
    applied := s.applied ++ events fed.2
    cursor := s.cursor.map fun seq => fed.1.lastId.elim seq (max seq) }

def step (s : ResumeState) : ResumeStep → Option ResumeState
  | .broadcast ev => some (s.broadcast ev)
  | .heartbeat => some (s.send heartbeatFrame)
  | .register hello =>
    match s.stream with
    | none => some (s.register hello)
    | some _ => none
  | .opened =>
    match s.stream with
    | some st =>
      if st.opened then none
      else
        let s := { s with stream := some { st with opened := true } }
        some (if s.cursor.isNone then s.flushAll else s)
    | none => none
  | .chunk n =>
    match s.stream with
    | some st => if st.opened then some (s.pump st n) else none
    | none => none
  | .disconnect =>
    match s.stream with
    | some _ => some { s with stream := none }
    | none => none

end ResumeState

/-! ## Frames -/

def payloads (ls : List Line) : List Payload :=
  ls.filterMap fun
    | .data p => some p
    | _ => none

def lineIds (ls : List Line) : List Nat :=
  ls.filterMap fun
    | .id n => some n
    | _ => none

def lineMarkers (ls : List Line) : List (Bool × Nat) :=
  ls.filterMap fun
    | .marker warm upto => some (warm, upto)
    | _ => none

/-- Whole frames, each with one `data` line at most, the first of which has had `n` of
them. -/
def framed : Nat → List Line → Prop
  | n, [] => n = 0
  | n, .data _ :: ls => n = 0 ∧ framed 1 ls
  | _, .blank :: ls => framed 0 ls
  | n, .marker .. :: ls | n, .id _ :: ls | n, .other :: ls => framed n ls

variable {ls : List Line} {n : Nat}

theorem framed_append {ls' : List Line} (h : framed n ls) (h' : framed 0 ls') :
    framed n (ls ++ ls') := by
  induction ls generalizing n with
  | nil =>
    obtain rfl : n = 0 := h
    exact h'
  | cons l ls ih =>
    cases l with
    | data p => exact ⟨h.1, ih h.2⟩
    | _ => exact ih h

theorem framed_markerFrame (r : Resume) : framed 0 (markerFrame r) := by
  cases r <;> exact rfl

theorem framed_helloFrame (ev : HomeEvent) : framed 0 (helloFrame ev) := ⟨rfl, rfl⟩

theorem framed_eventFrame (e : StreamEvent) : framed 0 (eventFrame e) := by
  unfold eventFrame
  split <;> exact ⟨rfl, rfl⟩

variable (es : List StreamEvent)

theorem framed_eventFrames : framed 0 (es.flatMap eventFrame) := by
  induction es with
  | nil => rfl
  | cons e es ih => exact framed_append (framed_eventFrame e) ih

theorem payloads_append (ls ls' : List Line) : payloads (ls ++ ls') = payloads ls ++ payloads ls' :=
  filterMap_append

theorem payloads_eventFrame (e : StreamEvent) : payloads (eventFrame e) = [.event e] := by
  unfold eventFrame
  split <;> rfl

theorem payloads_eventFrames : payloads (es.flatMap eventFrame) = es.map .event := by
  induction es with
  | nil => rfl
  | cons e es ih => rw [flatMap_cons, payloads_append, payloads_eventFrame, ih]; rfl

theorem lineMarkers_eventFrames : lineMarkers (es.flatMap eventFrame) = [] := by
  induction es with
  | nil => rfl
  | cons e es ih =>
    rw [flatMap_cons, lineMarkers, filterMap_append, ← lineMarkers, ← lineMarkers, ih]
    unfold eventFrame
    split <;> rfl

variable {es} in
theorem lineIds_eventFrames (h : ∀ e ∈ es, 0 < e.seq) :
    lineIds (es.flatMap eventFrame) = es.map StreamEvent.seq := by
  induction es with
  | nil => rfl
  | cons e es ih =>
    obtain ⟨he, hes⟩ := forall_mem_cons.mp h
    rw [flatMap_cons, lineIds, filterMap_append, ← lineIds, ← lineIds, ih hes,
      eventFrame, if_pos he]
    rfl

/-- The last offset read, and those in the lines to come. -/
def SseParser.ids (p : SseParser) (ls : List Line) : List Nat := p.lastId.toList ++ lineIds ls

/-- The marker read and not acted upon, and those in the lines to come. -/
def SseParser.marks (p : SseParser) (ls : List Line) : List (Bool × Nat) :=
  p.resume.toList ++ lineMarkers ls

/-- No payload and no marker is lost between the lines, the parser and what it has completed. -/
structure SseParser.Passes (p : SseParser × List Payload) (ls : List Line)
    (p' : SseParser × List Payload) (ls' : List Line) : Prop where
  payloads : p'.2 ++ p'.1.dataLines ++ payloads ls' = p.2 ++ p.1.dataLines ++ payloads ls
  one : p'.1.dataLines.length ≤ 1
  framed : framed p'.1.dataLines.length ls'
  ids : p'.1.ids ls' <+ p.1.ids ls
  marks : p'.1.marks ls' = p.1.marks ls

variable {p : SseParser × List Payload} {l : Line}

theorem SseParser.processLine_passes (hone : p.1.dataLines.length ≤ 1)
    (hframed : Edge.framed p.1.dataLines.length (l :: ls))
    (hmarks : (p.1.marks (l :: ls)).length ≤ 1) :
    Passes p (l :: ls) (processLine p l) ls := by
  cases l with
  | marker warm upto =>
    refine ⟨rfl, hone, hframed, .refl _, ?_⟩
    cases hresume : p.1.resume with
    | none => simp [processLine, SseParser.marks, hresume, lineMarkers]
    | some m => simp [SseParser.marks, hresume, lineMarkers] at hmarks
  | id n => exact ⟨rfl, hone, hframed, sublist_append_right _ _, rfl⟩
  | other => exact ⟨rfl, hone, hframed, .refl _, rfl⟩
  | data x =>
    have hnil : p.1.dataLines = [] := length_eq_zero_iff.mp hframed.1
    refine ⟨?_, ?_, ?_, .refl _, rfl⟩
    · simp [processLine, Edge.payloads]
    · simp [processLine, hnil]
    · simpa [processLine, hnil] using hframed.2
  | blank =>
    obtain ⟨⟨dataLines, lastId, resume⟩, completed⟩ := p
    match dataLines, hone with
    | [], _ => exact ⟨rfl, Nat.zero_le _, hframed, .refl _, rfl⟩
    | [x], _ =>
      refine ⟨?_, Nat.zero_le _, hframed, .refl _, rfl⟩
      simp [processLine, Edge.payloads]

theorem SseParser.foldl_passes (n : Nat) (hone : p.1.dataLines.length ≤ 1)
    (hframed : Edge.framed p.1.dataLines.length ls) (hmarks : (p.1.marks ls).length ≤ 1) :
    Passes p ls ((ls.take n).foldl processLine p) (ls.drop n) := by
  induction n generalizing p ls with
  | zero => exact ⟨rfl, hone, hframed, .refl _, rfl⟩
  | succ n ih =>
    cases ls with
    | nil => exact ⟨rfl, hone, hframed, .refl _, rfl⟩
    | cons l ls =>
      have hline := processLine_passes hone hframed hmarks
      have hrest := ih hline.one hline.framed (hline.marks ▸ hmarks)
      exact ⟨hrest.payloads.trans hline.payloads, hrest.one, hrest.framed,
        hrest.ids.trans hline.ids, hrest.marks.trans hline.marks⟩

/-! ## What is handled -/

def Stream.ids (st : Stream) : List Nat := st.parser.ids st.lines

def Stream.marks (st : Stream) : List (Bool × Nat) := st.parser.marks st.lines

def Stream.undelivered (st : Stream) : List StreamEvent :=
  ResumeState.events (st.parser.dataLines ++ payloads st.lines)

namespace ResumeState

def Handled (s : ResumeState) (q : Nat) : Prop :=
  (∃ e ∈ s.applied, e.seq = q) ∨ ∃ n ∈ s.flushes, q < n

/-- Where a stream may break: in front of its marker, or, once an event has been broadcast,
where no gap marker waits to be acted upon, the `id` line of every event to come is to come
too, and, if the marker has been acted upon, the replay is over. -/
def BreaksBetween (s : ResumeState) : ResumeStep → Prop
  | .disconnect => ∀ st ∈ s.stream, lineMarkers st.lines ≠ [] ∨
      (0 < s.log.nextSeq ∧ (∀ m ∈ st.parser.resume, m.1 = true) ∧
        ∀ e ∈ st.undelivered, .id e.seq ∈ st.lines ∧ (st.parser.resume = none → st.since ≤ e.seq))
  | _ => True

instance (s : ResumeState) (a : ResumeStep) : Decidable (s.BreaksBetween a) := by
  cases a <;> unfold ResumeState.BreaksBetween <;> infer_instance

/-! ## The invariant -/

def Safe (s : ResumeState) : Prop := ∀ c ∈ s.cursor, c < s.log.nextSeq ∧ ∀ q ≤ c, s.Handled q

def Carried (s : ResumeState) (st : Stream) : Prop :=
  ∀ q < s.log.nextSeq, s.Handled q ∨ ∃ e ∈ st.undelivered, e.seq = q

/-- What has been broadcast is handled or to come, unless a gap marker is still to be acted
upon; and in front of the marker the cursor is the one the edge has come with. -/
structure StreamInv (s : ResumeState) (st : Stream) : Prop where
  one : st.parser.dataLines.length ≤ 1
  framed : framed st.parser.dataLines.length st.lines
  marks : st.marks.length ≤ 1
  unread : lineMarkers st.lines ≠ [] → st.parser = .start ∧ s.Safe ∧ lineMarkers st.lines.tail = []
  status : s.Carried st ∨ ∃ upto, (false, upto) ∈ st.marks

/-- The cursor is below the offsets to come, unless a gap marker is still to be acted upon, or
a warm one has been and the offset is one of the replay. -/
structure Positioned (s : ResumeState) (st : Stream) : Prop where
  ascending : st.ids.Pairwise (· < ·)
  sent : ∀ n ∈ st.ids, 0 < n ∧ n < s.log.nextSeq
  since : st.since ≤ s.log.nextSeq
  reached : ∀ c ∈ s.cursor, c ≤ s.log.nextSeq - 1
  upto : ∀ m ∈ st.marks, m.2 ≤ st.since - 1
  ahead : ∀ c ∈ s.cursor, ∀ n ∈ lineIds st.lines, (∀ m ∈ st.marks, m.1 = true) →
    (st.marks = [] → st.since ≤ n) → c < n

end ResumeState

def InvalidationLog.Contiguous (log : InvalidationLog) : Prop :=
  ∃ start, start + log.history.length = log.nextSeq ∧
    log.history.map StreamEvent.seq = List.range' start log.history.length

structure ResumeState.Inv (s : ResumeState) : Prop where
  log : s.log.Contiguous
  away : s.stream = none → s.Safe
  stream : ∀ st ∈ s.stream, s.StreamInv st
  position : ∀ st ∈ s.stream, s.Positioned st

variable {log : InvalidationLog}

theorem InvalidationLog.Contiguous.record (h : log.Contiguous) (ev : HomeEvent) :
    (log.record ev).2.Contiguous := by
  obtain ⟨start, hlen, hseqs⟩ := h
  have hall : (log.history ++ [StreamEvent.mk log.nextSeq ev]).map StreamEvent.seq =
      List.range' start (log.history.length + 1) := by
    rw [map_append, hseqs, map_singleton, range'_concat, one_mul, hlen]
  have hlength :
    (log.history ++ [StreamEvent.mk log.nextSeq ev]).length = log.history.length + 1 := by simp
  refine ⟨start + (log.history.length + 1 - log.cap), ?_, ?_⟩
  · simp only [InvalidationLog.record, length_drop]
    omega
  · simp only [InvalidationLog.record, map_drop, hall, length_drop, hlength, drop_range', mul_one]

theorem InvalidationLog.Contiguous.replays (h : log.Contiguous) {c upto : Nat}
    {es : List StreamEvent} (hwarm : log.resume c = .warm es upto) {q : Nat} (hq : q < log.nextSeq)
    (hc : c < q) :
    ∃ e ∈ es, e.seq = q := by
  obtain ⟨start, hlen, hseqs⟩ := h
  unfold InvalidationLog.resume at hwarm
  simp only at hwarm
  split at hwarm
  · cases hwarm
  split at hwarm
  · omega
  split at hwarm
  · rename_i first hfirst
    split at hwarm
    · rename_i hle
      split at hwarm
      · cases hwarm
      · cases hwarm
        have hstart : first.seq = start := by
          have hhead := congrArg List.head? hseqs
          rw [head?_map, hfirst, head?_range'] at hhead
          split at hhead
          · cases hhead
          · exact Option.some.inj hhead
        have hmem : q ∈ log.history.map StreamEvent.seq := by
          rw [hseqs, List.mem_range'_1]
          omega
        obtain ⟨e, he, rfl⟩ := List.mem_map.mp hmem
        exact ⟨e, mem_filter.mpr ⟨he, decide_eq_true hc⟩, rfl⟩
    · cases hwarm
  · cases hwarm

theorem InvalidationLog.Contiguous.seq_lt (h : log.Contiguous) {e : StreamEvent}
    (he : e ∈ log.history) :
    e.seq < log.nextSeq := by
  obtain ⟨start, hlen, hseqs⟩ := h
  have hmem : e.seq ∈ List.range' start log.history.length := hseqs ▸ mem_map_of_mem he
  rw [List.mem_range'_1] at hmem
  omega

theorem InvalidationLog.Contiguous.replayed_ascending (h : log.Contiguous) (c : Nat) :
    ((ResumeState.replayed (log.resume c)).map StreamEvent.seq).Pairwise (· < ·) ∧
      ∀ e ∈ ResumeState.replayed (log.resume c), c < e.seq ∧ e.seq < log.nextSeq := by
  have hnil : (([] : List StreamEvent).map StreamEvent.seq).Pairwise (· < ·) ∧
      ∀ e ∈ ([] : List StreamEvent), c < e.seq ∧ e.seq < log.nextSeq := ⟨.nil, by simp⟩
  unfold InvalidationLog.resume
  simp only
  repeat' split
  all_goals first
    | exact hnil
    | skip
  refine ⟨?_, fun e he => ?_⟩
  · obtain ⟨start, -, hseqs⟩ := h
    exact (hseqs ▸ pairwise_lt_range' : (log.history.map StreamEvent.seq).Pairwise (· < ·)).sublist
      (filter_sublist.map _)
  · obtain ⟨hmem, hc⟩ := mem_filter.mp he
    exact ⟨of_decide_eq_true hc, h.seq_lt hmem⟩

theorem InvalidationLog.resume_marks (log : InvalidationLog) (c : Nat) :
    ∃ warm, lineMarkers (markerFrame (log.resume c)) = [(warm, log.nextSeq - 1)] := by
  unfold InvalidationLog.resume
  simp only
  repeat' split
  all_goals exact ⟨_, rfl⟩

namespace ResumeState

variable {e : StreamEvent}

theorem mem_events {ps : List Payload} : e ∈ events ps ↔ .event e ∈ ps := by
  rw [events, mem_filterMap]
  constructor
  · rintro ⟨p, hp, heq⟩
    cases p with
    | hello ev => cases heq
    | event e' =>
      cases heq
      exact hp
  · intro h
    exact ⟨_, h, rfl⟩

variable {st : Stream}

theorem mem_undelivered :
    e ∈ st.undelivered ↔ .event e ∈ st.parser.dataLines ∨ .event e ∈ payloads st.lines := by
  rw [Stream.undelivered, mem_events, mem_append]

theorem marks_append {ls : List Line} (h : lineMarkers ls = []) :
    ({ st with lines := st.lines ++ ls } : Stream).marks = st.marks := by
  rw [Stream.marks, SseParser.marks, lineMarkers, filterMap_append, ← lineMarkers, ← lineMarkers,
    h, append_nil]
  rfl

theorem StreamInv.append {s s' : ResumeState} {ls : List Line} (h : s.StreamInv st)
    (hhandled : ∀ q, s.Handled q → s'.Handled q) (hsafe : s.Safe → s'.Safe)
    (hframed : Edge.framed 0 ls) (hmarker : lineMarkers ls = [])
    (hnew : ∀ q < s'.log.nextSeq, s.log.nextSeq ≤ q → ∃ e, .event e ∈ payloads ls ∧ e.seq = q) :
    s'.StreamInv { st with lines := st.lines ++ ls } := by
  have happend (ls') : lineMarkers (ls' ++ ls) = lineMarkers ls' := by
    rw [lineMarkers, filterMap_append, ← lineMarkers, ← lineMarkers, hmarker, append_nil]
  refine ⟨h.one, framed_append h.framed hframed, (by rw [marks_append hmarker]; exact h.marks),
    fun hne => ?_, ?_⟩
  · rw [happend] at hne
    obtain ⟨hparser, hs, htail⟩ := h.unread hne
    refine ⟨hparser, hsafe hs, ?_⟩
    cases hlines : st.lines with
    | nil =>
      rw [hlines] at hne
      exact absurd rfl hne
    | cons l rest =>
      rw [hlines] at htail
      exact (happend rest).trans htail
  rw [marks_append hmarker]
  refine h.status.imp (fun hcarried q hq => ?_) id
  have hmem : ∀ {e}, .event e ∈ payloads st.lines ∨ .event e ∈ payloads ls →
    .event e ∈ payloads (st.lines ++ ls) :=
    fun he => payloads_append st.lines ls ▸ mem_append.mpr he
  by_cases hh : q < s.log.nextSeq
  · rcases hcarried q hh with hdone | ⟨e, he, rfl⟩
    · exact .inl (hhandled q hdone)
    · exact .inr
        ⟨e, mem_undelivered.mpr ((mem_undelivered.mp he).imp id fun hl => hmem (.inl hl)), rfl⟩
  · obtain ⟨e, he, rfl⟩ := hnew q hq (Nat.le_of_not_lt hh)
    exact .inr ⟨e, mem_undelivered.mpr (.inr (hmem (.inr he))), rfl⟩

theorem Positioned.append {s s' : ResumeState} {ls : List Line} (h : s.Positioned st)
    (hcursor : s'.cursor = s.cursor) (hlog : s.log.nextSeq ≤ s'.log.nextSeq)
    (hmarker : lineMarkers ls = []) (hsorted : (lineIds ls).Pairwise (· < ·))
    (hids : ∀ n ∈ lineIds ls, s.log.nextSeq ≤ n ∧ 0 < n ∧ n < s'.log.nextSeq) :
    s'.Positioned { st with lines := st.lines ++ ls } := by
  have hsplit : lineIds (st.lines ++ ls) = lineIds st.lines ++ lineIds ls := filterMap_append
  have happend : ({ st with lines := st.lines ++ ls } : Stream).ids = st.ids ++ lineIds ls := by
    rw [Stream.ids, SseParser.ids, hsplit, ← append_assoc]
    rfl
  refine ⟨?_, ?_, h.since.trans hlog, ?_, ?_, ?_⟩
  · rw [happend, pairwise_append]
    exact ⟨h.ascending, hsorted, fun a ha b hb => (h.sent a ha).2.trans_le (hids b hb).1⟩
  · rw [happend, forall_mem_append]
    exact ⟨fun n hn => ⟨(h.sent n hn).1, (h.sent n hn).2.trans_le hlog⟩, fun n hn => (hids n hn).2⟩
  · intro c hc
    have := h.reached c (hcursor ▸ hc)
    omega
  · rw [marks_append hmarker]
    exact h.upto
  · rw [marks_append hmarker, hsplit, hcursor]
    intro c hc n hn hwarm hsince
    rcases mem_append.mp hn with hold | hnew
    · exact h.ahead c hc n hold hwarm hsince
    · have := h.reached c hc
      have := hids n hnew
      omega

variable {s : ResumeState}

theorem Safe.mono {s' : ResumeState} (h : s.Safe) (hcursor : s'.cursor = s.cursor)
    (hlog : s.log.nextSeq ≤ s'.log.nextSeq) (hhandled : ∀ q, s.Handled q → s'.Handled q) :
    s'.Safe := by
  intro c hc
  rw [hcursor] at hc
  obtain ⟨hlt, hall⟩ := h c hc
  exact ⟨hlt.trans_le hlog, fun q hq => hhandled q (hall q hq)⟩

theorem mem_send {ls : List Line} {st' : Stream} (h : st' ∈ (s.send ls).stream) :
    ∃ st ∈ s.stream, st' = { st with lines := st.lines ++ ls } := by
  obtain ⟨st, hst, heq⟩ := map_eq_some_iff.mp h
  exact ⟨st, hst, heq.symm⟩

theorem lineMarkers_eventFrame (e : StreamEvent) : lineMarkers (eventFrame e) = [] := by
  simpa using lineMarkers_eventFrames [e]

theorem Inv.broadcast (h : s.Inv) (ev : HomeEvent) : (s.broadcast ev).Inv where
  log := h.log.record ev
  away hnone := (h.away (map_eq_none_iff.mp hnone)).mono rfl (Nat.le_succ _) fun _ hq => hq
  stream st' hst' := by
    obtain ⟨st, hst, rfl⟩ := mem_send hst'
    refine (h.stream st hst).append (fun _ hq => hq)
      (fun hsafe => hsafe.mono rfl (Nat.le_succ _) fun _ hq => hq)
      (framed_eventFrame _) (lineMarkers_eventFrame _) fun q hq hh => ?_
    rw [payloads_eventFrame]
    exact ⟨_, mem_singleton_self _, le_antisymm hh (Nat.le_of_lt_succ hq)⟩
  position st' hst' := by
    obtain ⟨st, hst, rfl⟩ := mem_send hst'
    have hids : lineIds (eventFrame ⟨s.log.nextSeq, ev⟩) = [] ∨
        0 < s.log.nextSeq ∧ lineIds (eventFrame ⟨s.log.nextSeq, ev⟩) = [s.log.nextSeq] := by
      unfold eventFrame
      split
      · exact .inr ⟨by assumption, rfl⟩
      · exact .inl rfl
    refine (h.position st hst).append rfl (Nat.le_succ _) (lineMarkers_eventFrame _) ?_ ?_
    · rcases hids with hnil | ⟨-, hone⟩
      · exact hnil ▸ .nil
      · exact hone ▸ pairwise_singleton _ _
    · rcases hids with hnil | ⟨hpos, hone⟩
      · exact hnil ▸ nofun
      · intro n hn
        obtain rfl := mem_singleton.mp (hone ▸ hn)
        exact ⟨le_refl _, hpos, Nat.lt_succ_self _⟩

theorem Inv.heartbeat (h : s.Inv) : (s.send heartbeatFrame).Inv where
  log := h.log
  away hnone := h.away (map_eq_none_iff.mp hnone)
  stream st' hst' := by
    obtain ⟨st, hst, rfl⟩ := mem_send hst'
    exact (h.stream st hst).append (fun _ hq => hq) id rfl rfl fun q hq hh =>
      absurd hq (not_lt.mpr hh)
  position st' hst' := by
    obtain ⟨st, hst, rfl⟩ := mem_send hst'
    exact (h.position st hst).append rfl (le_refl _) rfl .nil nofun

theorem registerAt_marks (s : ResumeState) :
    ∃ m, lineMarkers (markerFrame s.registerAt) = [m] ∧ m.2 ≤ s.log.nextSeq - 1 := by
  unfold registerAt
  split
  · obtain ⟨warm, hmarks⟩ := s.log.resume_marks _
    exact ⟨_, hmarks, le_refl _⟩
  · exact ⟨_, rfl, Nat.zero_le _⟩

theorem registerAt_replayed (hlog : s.log.Contiguous) :
    ((replayed s.registerAt).map StreamEvent.seq).Pairwise (· < ·) ∧
      ∀ e ∈ replayed s.registerAt, (0 < e.seq ∧ e.seq < s.log.nextSeq) ∧
        ∀ c ∈ s.cursor, c < e.seq := by
  unfold registerAt
  split
  · rename_i c hc
    obtain ⟨hascending, hbetween⟩ := hlog.replayed_ascending c
    refine ⟨hascending, fun e he => ?_⟩
    obtain ⟨habove, hbelow⟩ := hbetween e he
    refine ⟨⟨Nat.zero_lt_of_lt habove, hbelow⟩, fun c' hc' => ?_⟩
    cases hc.symm.trans hc'
    exact habove
  · exact ⟨.nil, nofun⟩

theorem lineMarkers_hello (hello : Option HomeEvent) (es : List StreamEvent) :
    lineMarkers (hello.elim [] helloFrame ++ es.flatMap eventFrame) = [] := by
  rw [lineMarkers, filterMap_append, ← lineMarkers, ← lineMarkers, lineMarkers_eventFrames]
  cases hello <;> rfl

theorem lineIds_hello (hello : Option HomeEvent) (es : List StreamEvent) :
    lineIds (hello.elim [] helloFrame ++ es.flatMap eventFrame) = lineIds
      (es.flatMap eventFrame) := by
  cases hello <;> rfl

theorem StreamInv.register (h : s.Inv) (haway : s.stream = none) (hello : Option HomeEvent) :
    ∀ st ∈ (s.register hello).stream, (s.register hello).StreamInv st := by
  intro st hst
  cases hst
  have hmarks : lineMarkers (markerFrame s.registerAt ++ hello.elim [] helloFrame ++
      (replayed s.registerAt).flatMap eventFrame) = lineMarkers (markerFrame s.registerAt) := by
    rw [append_assoc, lineMarkers, filterMap_append, ← lineMarkers, ← lineMarkers,
      lineMarkers_hello, append_nil]
  refine ⟨Nat.zero_le _, ?_, ?_, fun _ => ⟨rfl, h.away haway, ?_⟩, ?_⟩
  · rw [append_assoc]
    refine framed_append (framed_markerFrame _) (framed_append ?_ (framed_eventFrames _))
    cases hello with
    | none => rfl
    | some ev => exact framed_helloFrame ev
  · obtain ⟨m, hm, -⟩ := s.registerAt_marks
    show (lineMarkers _).length ≤ 1
    rw [hmarks, hm]
    exact le_refl _
  · rw [append_assoc]
    cases s.registerAt <;> exact lineMarkers_hello hello _
  cases hresume : s.registerAt with
  | gap upto => exact .inr ⟨upto, mem_cons_self⟩
  | warm es upto =>
    refine .inl fun q hq => ?_
    cases hcursor : s.cursor with
    | none =>
      rw [registerAt, hcursor] at hresume
      cases hresume
    | some c =>
      rw [registerAt, hcursor] at hresume
      by_cases hc : q ≤ c
      · exact .inl ((h.away haway c hcursor).2 q hc)
      · obtain ⟨e, he, rfl⟩ := h.log.replays hresume hq (Nat.lt_of_not_le hc)
        refine .inr ⟨e, mem_undelivered.mpr (.inr ?_), rfl⟩
        rw [payloads_append, payloads_eventFrames]
        exact mem_append_right _ (List.mem_map_of_mem he)

theorem Positioned.register (h : s.Inv) (haway : s.stream = none) (hello : Option HomeEvent) :
    ∀ st ∈ (s.register hello).stream, (s.register hello).Positioned st := by
  intro st hst
  cases hst
  obtain ⟨hascending, hbetween⟩ := registerAt_replayed h.log
  have hids : lineIds (markerFrame s.registerAt ++ hello.elim [] helloFrame ++
      (replayed s.registerAt).flatMap eventFrame) =
      (replayed s.registerAt).map StreamEvent.seq := by
    rw [append_assoc, lineIds, filterMap_append, ← lineIds, ← lineIds, lineIds_hello,
      lineIds_eventFrames fun e he => (hbetween e he).1.1]
    cases s.registerAt <;> rfl
  have hmarks : lineMarkers (markerFrame s.registerAt ++ hello.elim [] helloFrame ++
      (replayed s.registerAt).flatMap eventFrame) = lineMarkers (markerFrame s.registerAt) := by
    rw [append_assoc, lineMarkers, filterMap_append, ← lineMarkers, ← lineMarkers,
      lineMarkers_hello, append_nil]
  refine ⟨?_, ?_, le_refl _, fun c hc => ?_, ?_, fun c hc n hn _ _ => ?_⟩
  · show (lineIds _).Pairwise _
    rw [hids]
    exact hascending
  · show ∀ n ∈ lineIds _, _
    rw [hids, List.forall_mem_map]
    exact fun e he => (hbetween e he).1
  · exact Nat.le_sub_one_of_lt (h.away haway c hc).1
  · obtain ⟨m, hm, hle⟩ := s.registerAt_marks
    show ∀ m ∈ lineMarkers _, _
    rw [hmarks, hm]
    intro m' hm'
    rw [mem_singleton.mp hm']
    exact hle
  · obtain ⟨e, he, rfl⟩ := mem_map.mp (hids ▸ hn)
    exact (hbetween e he).2 c hc

theorem Inv.register (h : s.Inv) (haway : s.stream = none) (hello : Option HomeEvent) :
    (s.register hello).Inv :=
  ⟨h.log, nofun, StreamInv.register h haway hello, Positioned.register h haway hello⟩

variable {q : Nat}

theorem handled_flushAll (h : s.Handled q) : s.flushAll.Handled q :=
  h.imp id fun ⟨n, hn, hq⟩ => ⟨n, mem_cons_of_mem _ hn, hq⟩

theorem handled_of_flushAll (h : q < s.log.nextSeq) : s.flushAll.Handled q :=
  .inr ⟨_, mem_cons_self, h⟩

theorem StreamInv.mono {s' : ResumeState} {st' : Stream} (h : s.StreamInv st)
    (hparser : st'.parser = st.parser)
    (hlines : st'.lines = st.lines) (hlog : s'.log.nextSeq = s.log.nextSeq)
    (hhandled : ∀ q, s.Handled q → s'.Handled q) (hsafe : s.Safe → s'.Safe) : s'.StreamInv st' := by
  have hundelivered : st'.undelivered = st.undelivered := by
    rw [Stream.undelivered, hparser, hlines]; rfl
  have hmarks : st'.marks = st.marks := by rw [Stream.marks, hparser, hlines]; rfl
  refine ⟨hparser ▸ h.one, hparser ▸ hlines ▸ h.framed, hmarks ▸ h.marks, fun hne => ?_, ?_⟩
  · obtain ⟨hstart, hs, htail⟩ := h.unread (hlines ▸ hne)
    exact ⟨hparser.trans hstart, hsafe hs, hlines ▸ htail⟩
  · rw [hmarks]
    refine h.status.imp (fun hcarried q hq => ?_) id
    rw [hundelivered]
    exact (hcarried q (hlog ▸ hq)).imp (hhandled q) id

theorem Inv.opened (h : s.Inv) (hst : s.stream = some st) :
    Inv (if s.cursor.isNone then { s with stream := some { st with opened := true } }.flushAll
      else { s with stream := some { st with opened := true } }) := by
  have hstream := h.stream st hst
  obtain ⟨hascending, hsent, hsince, hreached, hupto, hahead⟩ := h.position st hst
  split
  · refine ⟨h.log, nofun, fun st' hst' => ?_, fun st' hst' => ?_⟩
    · cases hst'
      exact hstream.mono rfl rfl rfl (fun q hq => handled_flushAll hq) fun hsafe =>
        hsafe.mono rfl (le_refl _) fun q hq => handled_flushAll hq
    · cases hst'
      exact ⟨hascending, hsent, hsince, hreached, hupto, hahead⟩
  · refine ⟨h.log, nofun, fun st' hst' => ?_, fun st' hst' => ?_⟩
    · cases hst'
      exact hstream.mono rfl rfl rfl (fun q hq => hq) fun hsafe =>
        hsafe.mono rfl (le_refl _) fun q hq => hq
    · cases hst'
      exact ⟨hascending, hsent, hsince, hreached, hupto, hahead⟩

@[simp] theorem takeResume_log (s : ResumeState) (st : Stream) : (s.takeResume st).log = s.log := by
  unfold takeResume
  split <;> rfl

theorem handled_takeResume (h : s.Handled q) : (s.takeResume st).Handled q := by
  unfold takeResume
  split
  · exact h
  · exact h
  · exact handled_flushAll h

theorem handled_pump (h : (s.takeResume st).Handled q) :
    (s.pump st n).Handled q :=
  h.imp (fun ⟨e, he, hq⟩ => ⟨e, mem_append_left _ he, hq⟩) id

theorem StreamInv.lineMarkers_of_resume (h : s.StreamInv st) {m : Bool × Nat}
    (hm : st.parser.resume = some m) :
    lineMarkers st.lines = [] := by
  have hmarks := h.marks
  rw [Stream.marks, SseParser.marks, hm] at hmarks
  exact length_eq_zero_iff.mp (Nat.le_zero.mp (Nat.le_of_succ_le_succ hmarks))

/-- What becomes of the lines of a chunk, the marker read before it having been acted upon. -/
theorem StreamInv.passes (h : s.StreamInv st) (n : Nat) :
    SseParser.Passes ({ st.parser with resume := none }, []) st.lines
      (st.feed n) (st.lines.drop n) := by
  refine SseParser.foldl_passes n h.one h.framed (le_trans ?_ h.marks)
  exact (sublist_append_right st.parser.resume.toList (lineMarkers st.lines)).length_le

theorem StreamInv.unread_pump (h : s.StreamInv st) (n : Nat)
    (hne : lineMarkers (st.lines.drop n) ≠ []) : (st.feed n).1 = .start ∧ (s.pump st n).Safe ∧
      lineMarkers (st.lines.drop n).tail = [] := by
  have hsub (l l' : List Line) (hl : l <+ l') (hnil : lineMarkers l' = []) : lineMarkers l = [] :=
    sublist_nil.mp (hnil ▸ hl.filterMap _)
  obtain ⟨hstart, hsafe, htail⟩ := h.unread fun hnil => hne (hsub _ _ (drop_sublist n _) hnil)
  cases n with
  | succ n =>
    rw [← drop_tail] at hne
    exact absurd (hsub _ _ (drop_sublist n _) htail) hne
  | zero =>
    have hno : s.takeResume st = s := by rw [takeResume, hstart]; rfl
    have hfed : (st.feed 0).1 = .start := by
      rw [Stream.feed, hstart]
      rfl
    refine ⟨hfed,
      hsafe.mono ?_ (by simp [ResumeState.pump]) fun q hq => handled_pump (handled_takeResume hq),
      htail⟩
    show (s.takeResume st).cursor.map _ = _
    rw [hno, hfed]
    cases s.cursor <;> rfl

theorem StreamInv.pump (h : s.StreamInv st) (n : Nat) :
    ∀ st' ∈ (s.pump st n).stream, (s.pump st n).StreamInv st' := by
  have hpasses := h.passes n
  intro st' hst'
  cases hst'
  refine ⟨hpasses.one, hpasses.framed, ?_, h.unread_pump n, ?_⟩
  · refine le_trans (le_of_eq (congrArg length hpasses.marks)) (le_trans ?_ h.marks)
    exact (sublist_append_right st.parser.resume.toList (lineMarkers st.lines)).length_le
  rcases h.status with hcarried | ⟨upto, hgap⟩
  · -- what comes to its end is applied
    refine .inl fun q hq => ?_
    have hq : q < s.log.nextSeq := by simpa [ResumeState.pump] using hq
    rcases hcarried q hq with hdone | ⟨e, he, rfl⟩
    · exact .inl (handled_pump (handled_takeResume hdone))
    · have hmem : .event e ∈ (st.feed n).2 ++
          (st.feed n).1.dataLines ++ payloads (st.lines.drop n) := by
        rw [hpasses.payloads]
        exact mem_append.mpr (mem_undelivered.mp he)
      rw [append_assoc, mem_append, mem_append] at hmem
      rcases hmem with hdone | hrest
      · exact .inl (.inl ⟨e, mem_append_right _ (mem_events.mpr hdone), rfl⟩)
      · exact .inr ⟨e, mem_undelivered.mpr hrest, rfl⟩
  · cases hresume : st.parser.resume with
    | none =>
      rw [Stream.marks, SseParser.marks, hresume] at hgap
      exact .inr ⟨upto, by rw [Stream.marks, hpasses.marks]; exact hgap⟩
    | some m =>
      refine .inl fun q hq => .inl (handled_pump ?_)
      have hq : q < s.log.nextSeq := by simpa [ResumeState.pump] using hq
      rw [Stream.marks, SseParser.marks, hresume, h.lineMarkers_of_resume hresume] at hgap
      cases mem_singleton.mp hgap
      rw [takeResume, hresume]
      exact handled_of_flushAll hq

/-- The cursor that acting upon the marker leaves. -/
theorem Positioned.takeResume (h : s.Positioned st) (hi : s.StreamInv st) :
    ∀ c ∈ (s.takeResume st).cursor, c ≤ s.log.nextSeq - 1 ∧
      ∀ n ∈ lineIds st.lines, (∀ m ∈ lineMarkers st.lines, m.1 = true) →
        (lineMarkers st.lines = [] → st.since ≤ n) → c < n := by
  intro c hc
  cases hresume : st.parser.resume with
  | none =>
    have hmarks : st.marks = lineMarkers st.lines := by
      rw [Stream.marks, SseParser.marks, hresume]; rfl
    rw [ResumeState.takeResume, hresume] at hc
    exact ⟨h.reached c hc, hmarks ▸ h.ahead c hc⟩
  | some m =>
    have hupto := h.upto m (by rw [Stream.marks, SseParser.marks, hresume]; exact mem_cons_self)
    have hcursor : (s.takeResume st).cursor = some m.2 := by
      rw [ResumeState.takeResume, hresume]
      split <;> rename_i heq <;> cases heq <;> rfl
    cases hcursor.symm.trans hc
    refine ⟨hupto.trans (Nat.sub_le_sub_right h.since 1), fun n hn _ hsince => ?_⟩
    have := hsince (hi.lineMarkers_of_resume hresume)
    have := (h.sent n (mem_append_right _ hn)).1
    omega

theorem Positioned.pump (h : s.Positioned st) (hi : s.StreamInv st) (n : Nat) :
    ∀ st' ∈ (s.pump st n).stream, (s.pump st n).Positioned st' := by
  have hpasses := hi.passes n
  have hids : (st.feed n).1.ids (st.lines.drop n) <+ st.ids := hpasses.ids
  have hmarks : (st.feed n).1.marks (st.lines.drop n) = lineMarkers st.lines := hpasses.marks
  have hlog : (s.pump st n).log = s.log := by simp [ResumeState.pump]
  have hascending := h.ascending.sublist hids
  have hlast {k} (hk : k ∈ (st.feed n).1.lastId) : k ∈ (st.feed n).1.ids (st.lines.drop n) :=
    mem_append_left _ (mem_toList.mpr hk)
  have hcursor {c} (hc : c ∈ (s.pump st n).cursor) :
      ∃ c' ∈ (s.takeResume st).cursor, c = c' ∨ ∃ k ∈ (st.feed n).1.lastId, c = max c' k := by
    obtain ⟨c', hc', rfl⟩ := map_eq_some_iff.mp hc
    refine ⟨c', hc', ?_⟩
    cases (st.feed n).1.lastId with
    | none => exact .inl rfl
    | some k => exact .inr ⟨k, rfl, rfl⟩
  intro st' hst'
  cases hst'
  refine ⟨hascending, fun k hk => hlog ▸ h.sent k (hids.subset hk), hlog ▸ h.since,
    fun c hc => ?_, ?_, fun c hc k hk hwarm hsince => ?_⟩
  · rw [hlog]
    obtain ⟨c', hc', rfl | ⟨k, hk, rfl⟩⟩ := hcursor hc
    · exact (h.takeResume hi _ hc').1
    · exact max_le (h.takeResume hi _ hc').1
        (Nat.le_sub_one_of_lt (h.sent k (hids.subset (hlast hk))).2)
  · rw [Stream.marks, hmarks]
    exact fun m hm => h.upto m (mem_append_right _ hm)
  · rw [Stream.marks, hmarks] at hwarm hsince
    obtain ⟨c', hc', hc⟩ := hcursor hc
    have hbefore :=
      (h.takeResume hi c' hc').2 k (((drop_sublist n st.lines).filterMap _).subset hk) hwarm hsince
    obtain rfl | ⟨k', hk', rfl⟩ := hc
    · exact hbefore
    · exact max_lt hbefore ((pairwise_append.mp hascending).2.2 k' (mem_toList.mpr hk') k hk)

theorem Inv.disconnect (h : s.Inv) (hst : s.stream = some st)
    (hbreak : s.BreaksBetween .disconnect) :
    Inv { s with stream := none } := by
  refine ⟨h.log, fun _ => ?_, nofun, nofun⟩
  have hi := h.stream st hst
  have hp := h.position st hst
  by_cases hread : lineMarkers st.lines = []
  · obtain ⟨hpos, hresume, hto⟩ := (hbreak st hst).resolve_left (not_not_intro hread)
    have hmarks : st.marks = st.parser.resume.toList := by
      rw [Stream.marks, SseParser.marks, hread, append_nil]
    have hwarm : ∀ m ∈ st.marks, m.1 = true := fun m hm => hresume m (mem_toList.mp (hmarks ▸ hm))
    have hcarried := hi.status.resolve_right fun ⟨upto, hgap⟩ => Bool.false_ne_true (hwarm _ hgap)
    intro c hc
    have hlt : c < s.log.nextSeq := by
      have := hp.reached c hc
      omega
    refine ⟨hlt, fun q hq => ?_⟩
    rcases hcarried q (hq.trans_lt hlt) with hdone | ⟨e, he, rfl⟩
    · exact hdone
    · obtain ⟨hid, hsince⟩ := hto e he
      have habove := hp.ahead c hc e.seq (mem_filterMap.mpr ⟨_, hid, rfl⟩) hwarm fun hnil =>
        hsince (toList_eq_nil_iff.mp (hmarks ▸ hnil))
      exact absurd habove (not_lt.mpr hq)
  · exact (hi.unread hread).2.1

theorem Inv.step {s' : ResumeState} (h : s.Inv) {a : ResumeStep} (hbreak : s.BreaksBetween a)
    (hstep : s.step a = some s') : s'.Inv := by
  cases a with
  | broadcast ev =>
    cases hstep
    exact h.broadcast ev
  | heartbeat =>
    cases hstep
    exact h.heartbeat
  | register hello =>
    simp only [ResumeState.step] at hstep
    split at hstep
    · rename_i haway
      cases hstep
      exact h.register haway hello
    · cases hstep
  | opened =>
    simp only [ResumeState.step] at hstep
    split at hstep
    · rename_i st hst
      split at hstep
      · cases hstep
      · cases hstep
        exact h.opened hst
    · cases hstep
  | chunk n =>
    simp only [ResumeState.step] at hstep
    split at hstep
    · rename_i st hst
      split at hstep
      · cases hstep
        refine ⟨?_, nofun, (h.stream st hst).pump n, (h.position st hst).pump (h.stream st hst) n⟩
        show (s.takeResume st).log.Contiguous
        rw [takeResume_log]
        exact h.log
      · cases hstep
    · cases hstep
  | disconnect =>
    simp only [ResumeState.step] at hstep
    split at hstep
    · rename_i st hst
      cases hstep
      exact h.disconnect hst hbreak
    · cases hstep

theorem inv_start (cap : Nat) : (start cap).Inv :=
  ⟨⟨0, rfl, rfl⟩, nofun, nofun, nofun⟩

end ResumeState

/-- When the edge comes back and is answered warm, every event broadcast before has been
applied, or is replayed, or was broadcast before a flush. -/
theorem warm_resume_complete (cap : Nat) (steps : List ResumeStep) {s : ResumeState}
    (hbreaks : Runs.Along ResumeState.step ResumeState.BreaksBetween (.start cap) steps)
    (hran : Runs.run ResumeState.step (.start cap) steps = some s) (haway : s.stream = none)
    {replay : List StreamEvent} {upto : Nat} (hwarm : s.registerAt = .warm replay upto) :
    ∀ q < s.log.nextSeq, s.Handled q ∨ ∃ e ∈ replay, e.seq = q := by
  have hinv : s.Inv := Runs.run_invariant_along (fun _ _ _ h hk hstep => h.step hk hstep)
    (ResumeState.inv_start cap) hbreaks hran
  intro q hq
  cases hcursor : s.cursor with
  | none =>
    rw [ResumeState.registerAt, hcursor] at hwarm
    cases hwarm
  | some c =>
    rw [ResumeState.registerAt, hcursor] at hwarm
    by_cases hc : q ≤ c
    · exact .inl ((hinv.away haway c hcursor).2 q hc)
    · exact .inr (hinv.log.replays hwarm hq (Nat.lt_of_not_le hc))

def anyEvent : HomeEvent := ⟨1, 5, []⟩

/-- The edge connects, reads the marker and comes to the offset 0; the stream breaks
with event 1 on its way, and event 2 is broadcast. -/
def brokenStream : List ResumeStep :=
  [.broadcast anyEvent, .register none, .opened, .chunk 2, .heartbeat, .chunk 2,
    .broadcast anyEvent, .disconnect, .broadcast anyEvent]

def missedEvents : List StreamEvent := [⟨1, anyEvent⟩, ⟨2, anyEvent⟩]

/-- It comes back, reads the warm marker and one line more, and the stream breaks again. -/
def brokenReplay : List ResumeStep :=
  brokenStream ++ [.register none, .opened, .chunk 2, .chunk 1, .disconnect]

theorem warm_resume_complete_broken :
    ∃ s, Runs.run ResumeState.step (.start 256) brokenStream = some s ∧
      s.registerAt = .warm missedEvents 2 ∧
      ∀ q < s.log.nextSeq, s.Handled q ∨ ∃ e ∈ missedEvents, e.seq = q :=
  ⟨_, rfl, by decide, warm_resume_complete 256 brokenStream (by decide) rfl rfl
    (show _ = Resume.warm missedEvents 2 by decide)⟩

/-- The cursor was at the end of the replay before the events had come. -/
theorem not_warm_resume_complete :
    ∃ s, Runs.run ResumeState.step (.start 256) brokenReplay = some s ∧ s.stream = none ∧
      s.registerAt = .warm [] 2 ∧ ¬ ∀ q < s.log.nextSeq, s.Handled q ∨
        ∃ e ∈ ([] : List StreamEvent), e.seq = q := by
  refine ⟨_, rfl, rfl, by decide, fun hall => ?_⟩
  rcases hall 1 (by decide) with (⟨e, he, -⟩ | ⟨n, hn, hlt⟩) | ⟨e, he, -⟩
  · cases he
  · revert n
    decide
  · cases he

end HeliosProxy.Edge
