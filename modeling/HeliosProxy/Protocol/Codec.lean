import HeliosProxy.Lib.Bytes

/-!
# The frames of the wire protocol

`protocol.rs`: the type of a message by its tag, the two encoders, and the two decoders
that take a frame off the front of a buffer.  A decoder returns the buffer as it leaves
it, whether it fails or not.
-/

namespace HeliosProxy.Protocol

open Wire List Option

/-! ## Messages -/

inductive MessageType
  | startup | sslRequest | authRequest | password | query | parse | bind | describe | execute
  | sync | flush | close | terminate | copyData | copyDone | copyFail | functionCall
  | backendKeyData | parameterStatus | readyForQuery | rowDescription | dataRow
  | commandComplete | emptyQueryResponse | errorResponse | noticeResponse
  | notificationResponse | parseComplete | bindComplete | closeComplete | portalSuspended
  | noData | parameterDescription
  | unknown (tag : UInt8)
deriving DecidableEq

def byte (c : Char) : UInt8 := UInt8.ofNat c.toNat

namespace MessageType

/-- `from_tag`.  The tags that both sides use stand for the client's message. -/
def fromTag (tag : UInt8) : MessageType :=
  match Char.ofNat tag.toNat with
  | 'Q' => .query
  | 'P' => .parse
  | 'B' => .bind
  | 'D' => .describe
  | 'E' => .execute
  | 'S' => .sync
  | 'H' => .flush
  | 'C' => .close
  | 'X' => .terminate
  | 'd' => .copyData
  | 'c' => .copyDone
  | 'f' => .copyFail
  | 'F' => .functionCall
  | 'p' => .password
  | 'R' => .authRequest
  | 'K' => .backendKeyData
  | 'Z' => .readyForQuery
  | 'T' => .rowDescription
  | 'I' => .emptyQueryResponse
  | 'N' => .noticeResponse
  | 'A' => .notificationResponse
  | '1' => .parseComplete
  | '2' => .bindComplete
  | '3' => .closeComplete
  | 's' => .portalSuspended
  | 'n' => .noData
  | 't' => .parameterDescription
  | _ => .unknown tag

def toTag : MessageType → Option UInt8
  | .query => some (byte 'Q')
  | .parse => some (byte 'P')
  | .bind => some (byte 'B')
  | .describe => some (byte 'D')
  | .execute => some (byte 'E')
  | .sync => some (byte 'S')
  | .flush => some (byte 'H')
  | .close => some (byte 'C')
  | .terminate => some (byte 'X')
  | .copyData => some (byte 'd')
  | .copyDone => some (byte 'c')
  | .copyFail => some (byte 'f')
  | .functionCall => some (byte 'F')
  | .password => some (byte 'p')
  | .authRequest => some (byte 'R')
  | .backendKeyData => some (byte 'K')
  | .parameterStatus => some (byte 'S')
  | .readyForQuery => some (byte 'Z')
  | .rowDescription => some (byte 'T')
  | .dataRow => some (byte 'D')
  | .commandComplete => some (byte 'C')
  | .emptyQueryResponse => some (byte 'I')
  | .errorResponse => some (byte 'E')
  | .noticeResponse => some (byte 'N')
  | .notificationResponse => some (byte 'A')
  | .parseComplete => some (byte '1')
  | .bindComplete => some (byte '2')
  | .closeComplete => some (byte '3')
  | .portalSuspended => some (byte 's')
  | .noData => some (byte 'n')
  | .parameterDescription => some (byte 't')
  | _ => none

theorem byte_ofNat (tag : UInt8) : byte (Char.ofNat tag.toNat) = tag := by
  have hs : tag.toNat < 256 := tag.toNat_lt
  have hv : tag.toNat.isValidChar := .inl (by omega)
  rw [byte, Char.toNat_ofNat, if_pos hv, UInt8.ofNat_toNat]

theorem toTag_fromTag (tag : UInt8) :
    (fromTag tag).toTag = some tag ∨ fromTag tag = .unknown tag := by
  have hs := byte_ofNat tag
  unfold fromTag
  split
  case h_28 => exact .inr rfl
  all_goals
    rename_i hl
    rw [hl] at hs
    exact .inl (congrArg some hs)

end MessageType

structure Message where
  msgType : MessageType
  payload : Bytes
deriving DecidableEq

namespace Message

def lengthWord (m : Message) : UInt32 := UInt32.ofNat m.payload.length + 4

def encode (m : Message) : Bytes :=
  match m.msgType.toTag with
  | some tag => tag :: toBeBytes m.lengthWord ++ m.payload
  | none => toBeBytes m.lengthWord ++ m.payload

/-- `encode_into`, which writes the tag, the length and the payload to the end of `dst`. -/
def encodeInto (m : Message) (dst : Bytes) : Bytes :=
  let dst := match m.msgType.toTag with
    | some tag => dst ++ [tag]
    | none => dst
  let dst := dst ++ toBeBytes m.lengthWord
  dst ++ m.payload

end Message

inductive ProxyError
  | protocol (text : String)
  /-- The text of a parameter is not UTF-8. -/
  | invalidUtf8 (bytes : Bytes)
deriving DecidableEq

/-- `decode_message`, with the buffer it leaves. -/
def decodeMessage (maxMessageSize : Nat) (src : Bytes) : Except ProxyError (Option Message) × Bytes :=
  if src.length < 5 then (.ok none, src)
  else
    let tag := src.headD 0
    let len := (fromBeBytes ((src.drop 1).take 4)).toNat
    if maxMessageSize < len then (.error (.protocol s!"Message too large: {len} bytes"), src)
    else if len < 4 then (.error (.protocol s!"message length {len} below minimum of 4"), src)
    else if src.length < 1 + len then (.ok none, src)
    else
      let src := src.drop 5
      (.ok (some ⟨.fromTag tag, src.take (len - 4)⟩), src.drop (len - 4))

theorem encodeInto_eq (m : Message) (dst : Bytes) : m.encodeInto dst = dst ++ m.encode := by
  unfold Message.encodeInto Message.encode
  cases m.msgType.toTag with
  | none => simp only [append_assoc]
  | some tag => simp only [append_assoc, cons_append, nil_append]

variable {maxMessageSize : Nat} {src rest : Bytes}

theorem decodeMessage_some {m : Message}
    (hd : decodeMessage maxMessageSize src = (.ok (some m), rest)) :
    ∃ tag a b c d payload, src = tag :: a :: b :: c :: d :: (payload ++ rest) ∧
      m = ⟨.fromTag tag, payload⟩ ∧ (fromBeBytes [a, b, c, d]).toNat = payload.length + 4 ∧
      payload.length + 4 ≤ maxMessageSize := by
  unfold decodeMessage at hd
  split at hd
  · cases hd
  next hl =>
  obtain ⟨tag, a, b, c, d, body, rfl⟩ : ∃ tag a b c d body, src = tag :: a :: b :: c :: d :: body := by
    match src, hl with
    | tag :: a :: b :: c :: d :: body, _ => exact ⟨tag, a, b, c, d, body, rfl⟩
    | [], hl | [_], hl | [_, _], hl | [_, _, _], hl | [_, _, _, _], hl => simp at hl
  simp only [drop_succ_cons, drop_zero, take_succ_cons, take_zero,
    headD_cons] at hd
  split at hd
  · cases hd
  split at hd
  · cases hd
  split at hd
  · cases hd
  next hsm hla hs =>
  obtain ⟨hm, rfl⟩ := Prod.mk.inj hd
  cases hm
  simp only [length_cons] at hs
  refine ⟨tag, a, b, c, d, _, by rw [take_append_drop], rfl, ?_, ?_⟩
  · rw [length_take]
    omega
  · rw [length_take]
    omega

variable {a b c d : UInt8}

theorem lengthWord_eq {m : Message}
    (hd : (fromBeBytes [a, b, c, d]).toNat = m.payload.length + 4) :
    m.lengthWord = fromBeBytes [a, b, c, d] := by
  have hb := (fromBeBytes [a, b, c, d]).toNat_lt
  apply UInt32.toNat_inj.mp
  rw [Message.lengthWord, UInt32.toNat_add, UInt32.toNat_ofNat']
  have hf : (4 : UInt32).toNat = 4 := rfl
  omega

theorem encode_eq {tag : UInt8} {payload : Bytes}
    (hd : (fromBeBytes [a, b, c, d]).toNat = payload.length + 4) :
    (Message.mk (.fromTag tag) payload).encode =
      if MessageType.fromTag tag = .unknown tag then a :: b :: c :: d :: payload
      else tag :: a :: b :: c :: d :: payload := by
  have hw := lengthWord_eq (m := ⟨.fromTag tag, payload⟩) hd
  rw [Message.encode, hw, toBeBytes_fromBeBytes]
  rcases MessageType.toTag_fromTag tag with hk | hu
  · have ho : MessageType.fromTag tag ≠ .unknown tag := by
      intro hu
      rw [hu] at hk
      cases hk
    rw [if_neg ho]
    simp only [hk]
    rfl
  · rw [if_pos hu]
    simp only [hu]
    rfl

theorem decodeMessage_partial {tag : UInt8} {payload part : Bytes}
    (hd : (fromBeBytes [a, b, c, d]).toNat = payload.length + 4)
    (hfi : payload.length + 4 ≤ maxMessageSize)
    (hf : part <+: tag :: a :: b :: c :: d :: payload)
    (hs : part ≠ tag :: a :: b :: c :: d :: payload) :
    decodeMessage maxMessageSize part = (.ok none, part) := by
  have hsh : part.length < payload.length + 5 := by
    have hle := hf.length_le
    rcases lt_or_eq_of_le hle with hlt | hsa
    · exact hlt
    · exact absurd (hf.eq_of_length hsa) hs
  unfold decodeMessage
  split
  · rfl
  next hl =>
  have hh : part.take 5 = [tag, a, b, c, d] := by
    rw [prefix_iff_eq_take.mp hf, take_take, min_eq_left (Nat.le_of_not_lt hl)]
    rfl
  have hw : (part.drop 1).take 4 = [a, b, c, d] := by
    rw [take_drop, hh]
    rfl
  simp only [hw]
  rw [if_neg (by omega), if_neg (by omega), if_pos (by omega)]

/-- A message is encoded as the frame it was decoded from just when its tag is one of
those the proxy knows.  No part of the frame is taken for a message. -/
theorem decodeMessage_roundTrip (maxMessageSize : Nat) (src : Bytes) :
    (∀ m rest, decodeMessage maxMessageSize src = (.ok (some m), rest) →
      ∃ frame, src = frame ++ rest ∧
        (m.encode = frame ↔ MessageType.fromTag (src.headD 0) ≠ .unknown (src.headD 0)) ∧
        ∀ part, part <+: frame → part ≠ frame →
          decodeMessage maxMessageSize part = (.ok none, part)) ∧
      ∀ (m : Message) out, m.encodeInto out = out ++ m.encode := by
  refine ⟨fun m rest hdecoded => ?_, encodeInto_eq⟩
  obtain ⟨tag, a, b, c, d, payload, rfl, rfl, hdeclared, hfits⟩ := decodeMessage_some hdecoded
  refine ⟨tag :: a :: b :: c :: d :: payload, rfl, ?_, fun part => decodeMessage_partial hdeclared hfits⟩
  rw [encode_eq hdeclared]
  split
  case isTrue hunknown =>
    refine ⟨fun hsame => ?_, fun hknown => absurd hunknown hknown⟩
    have hlength := congrArg List.length hsame
    simp only [length_cons] at hlength
    omega
  case isFalse hknown => exact ⟨fun _ => hknown, fun _ => rfl⟩

/-- A frame with the tag `G` loses it. -/
theorem not_decodeMessage_roundTrip :
    decodeMessage 100 [byte 'G', 0, 0, 0, 4] = (.ok (some ⟨.unknown (byte 'G'), []⟩), []) ∧
      (Message.mk (.unknown (byte 'G')) []).encode = [0, 0, 0, 4] := by
  decide

/-! ## The start of a connection -/

/-- The parameters of a startup message; a later one of the same name counts. -/
abbrev Params := List (List Char × List Char)

def Params.insert (params : Params) (key value : List Char) : Params :=
  (key, value) :: params.filter (·.1 != key)

inductive StartupMessage
  | startup (protocolVersion : UInt32) (params : Params)
  | sslRequest
  | cancelRequest (pid key : UInt32)
deriving DecidableEq

def readCstring (buf : Bytes) : Except ProxyError (List Char × Bytes) :=
  if buf.contains 0 then
    match String.fromUTF8? (ByteArray.mk (buf.takeWhile (· != 0)).toArray) with
    | some s => .ok (s.toList, (buf.dropWhile (· != 0)).tail)
    | none => .error (.invalidUtf8 (buf.takeWhile (· != 0)))
  else .error (.protocol "unterminated cstring in protocol buffer")

def readParams : Nat → Params → Bytes → Except ProxyError Params
  | 0, params, _ => .ok params
  | _ + 1, params, [] => .ok params
  | fuel + 1, params, buf => do
    let (key, buf) ← readCstring buf
    if key.isEmpty then return params
    let (value, buf) ← readCstring buf
    readParams fuel (params.insert key value) buf

def startupLen (src : Bytes) : Nat := (fromBeBytes (src.take 4)).toNat

def startupCode (src : Bytes) : UInt32 := fromBeBytes ((src.drop 4).take 4)

def sslCode : UInt32 := 80877103
def cancelCode : UInt32 := 80877102

/-- `decode_startup`, with the buffer it leaves. -/
def decodeStartup (maxMessageSize : Nat) (src : Bytes) :
    Except ProxyError (Option StartupMessage) × Bytes :=
  if src.length < 4 then (.ok none, src)
  else
    let len := startupLen src
    if maxMessageSize < len then (.error (.protocol s!"Message too large: {len} bytes"), src)
    else if len < 8 then
      (.error (.protocol s!"startup message length {len} below minimum of 8"), src)
    else if src.length < len then (.ok none, src)
    else
      let protocolVersion := startupCode src
      let src := src.drop 8
      if protocolVersion = sslCode then (.ok (some .sslRequest), src)
      else if protocolVersion = cancelCode then
        if src.length < 8 then
          (.error (.protocol s!"CancelRequest length {len} too short for pid+key (need at least 16)"), src)
        else
          (.ok (some (.cancelRequest (fromBeBytes (src.take 4)) (fromBeBytes ((src.drop 4).take 4)))),
            src.drop 8)
      else
        let remaining := len - 8
        let paramBytes := src.take remaining
        let src := src.drop remaining
        match readParams (paramBytes.length + 1) [] paramBytes with
        | .error e => (.error e, src)
        | .ok params => (.ok (some (.startup protocolVersion params)), src)

/-- What a startup frame that is whole in `src` is decoded as. -/
inductive Decodes (src : Bytes) : StartupMessage → Bytes → Prop
  | ssl (hc : startupCode src = sslCode) : Decodes src .sslRequest (src.drop 8)
  | cancel (hc : startupCode src = cancelCode) (hl : 16 ≤ src.length) :
      Decodes src (.cancelRequest (fromBeBytes ((src.drop 8).take 4)) (fromBeBytes ((src.drop 12).take 4)))
        (src.drop 16)
  | startup {params : Params} (hs : startupCode src ≠ sslCode) (hca : startupCode src ≠ cancelCode)
      (hr : readParams (((src.drop 8).take (startupLen src - 8)).length + 1) []
        ((src.drop 8).take (startupLen src - 8)) = .ok params) :
      Decodes src (.startup (startupCode src) params) ((src.drop 8).drop (startupLen src - 8))

theorem decodeStartup_some {msg : StartupMessage} :
    decodeStartup maxMessageSize src = (.ok (some msg), rest) ↔
      startupLen src ≤ maxMessageSize ∧ 8 ≤ startupLen src ∧ startupLen src ≤ src.length ∧
        Decodes src msg rest := by
  constructor
  · intro hd
    unfold decodeStartup at hd
    split at hd
    · cases hd
    dsimp only at hd
    split at hd
    · cases hd
    split at hd
    · cases hd
    split at hd
    · cases hd
    refine ⟨by omega, by omega, by omega, ?_⟩
    split at hd
    · next hc =>
      obtain ⟨hm, rfl⟩ := Prod.mk.inj hd
      cases hm
      exact .ssl hc
    split at hd
    · next hc =>
      split at hd
      · cases hd
      next he =>
      obtain ⟨hm, rfl⟩ := Prod.mk.inj hd
      cases hm
      rw [length_drop] at he
      rw [drop_drop, drop_drop]
      exact .cancel hc (by omega)
    next hs hca =>
    split at hd
    · cases hd
    next params hr =>
    obtain ⟨hm, rfl⟩ := Prod.mk.inj hd
    cases hm
    exact .startup hs hca hr
  · rintro ⟨hsm, hl, hlo, hde⟩
    unfold decodeStartup
    rw [if_neg (by omega)]
    rw [if_neg (by omega), if_neg (by omega), if_neg (by omega)]
    cases hde with
    | ssl hc => rw [if_pos hc]
    | cancel hc he =>
      rw [if_neg (by rw [hc]; decide), if_pos hc, if_neg (by rw [length_drop]; omega),
        drop_drop, drop_drop]
    | startup hs hca hr =>
      rw [if_neg hs, if_neg hca]
      simp only [hr]

theorem decodeStartup_none
    (hd : decodeStartup maxMessageSize src = (.ok none, rest)) : rest = src := by
  unfold decodeStartup at hd
  split at hd
  · exact (Prod.mk.inj hd).2.symm
  dsimp only at hd
  split at hd
  · cases hd
  split at hd
  · cases hd
  split at hd
  · exact (Prod.mk.inj hd).2.symm
  split at hd
  · cases hd
  split at hd
  · split at hd <;> cases hd
  split at hd <;> cases hd

/-- A request that is no startup message declares the length such a request has. -/
def SizedRequest (src : Bytes) : Prop :=
  (startupCode src = sslCode → startupLen src = 8) ∧ (startupCode src = cancelCode → startupLen src = 16)

/-- The frame of the declared length is removed, and `msg` is what it is decoded as whatever
follows it. -/
structure Exact (maxMessageSize : Nat) (src : Bytes) (msg : StartupMessage) (rest : Bytes) : Prop where
  within : startupLen src ≤ src.length
  removed : src = src.take (startupLen src) ++ rest
  only : ∀ tail, decodeStartup maxMessageSize (src.take (startupLen src) ++ tail) = (.ok (some msg), tail)

section Frame

variable {src : Bytes} {n : Nat} (tail : Bytes)

/-- A part of the buffer that lies in its first `n` bytes. -/
theorem take_drop_frame {i j : Nat} (hi : i + j ≤ n) (hw : n ≤ src.length) :
    ((src.take n ++ tail).drop i).take j = (src.drop i).take j := by
  have hl : (src.take n).length = n := by rw [length_take]; omega
  rw [drop_append_of_le_length (by omega), take_append_of_le_length (by rw [length_drop]; omega),
    take_drop, take_take, take_drop, min_eq_left hi]

theorem drop_frame (hw : n ≤ src.length) : (src.take n ++ tail).drop n = tail := by
  have hl : (src.take n).length = n := by rw [length_take]; omega
  conv => lhs; rw [← hl]
  simp

end Frame

theorem startupLen_frame (hl : 8 ≤ startupLen src) (hw : startupLen src ≤ src.length)
    (tail : Bytes) : startupLen (src.take (startupLen src) ++ tail) = startupLen src := by
  show (fromBeBytes (((src.take (startupLen src) ++ tail).drop 0).take 4)).toNat = _
  rw [take_drop_frame tail (by omega) hw]
  rfl

theorem Decodes.frame {msg : StartupMessage} (hd : Decodes src msg rest)
    (hl : 8 ≤ startupLen src) (hw : startupLen src ≤ src.length) (hsi : SizedRequest src)
    (tail : Bytes) : Decodes (src.take (startupLen src) ++ tail) msg tail := by
  have hlen := startupLen_frame hl hw tail
  have hs : startupCode (src.take (startupLen src) ++ tail) = startupCode src := by
    rw [startupCode, take_drop_frame tail (by omega) hw, startupCode]
  have hr := drop_frame tail hw
  cases hd with
  | ssl hc =>
    have hf := Decodes.ssl (hs.trans hc)
    rwa [← hsi.1 hc, hr] at hf
  | cancel hc hlo =>
    have hsix := hsi.2 hc
    have hle : 16 ≤ (src.take (startupLen src) ++ tail).length := by
      rw [length_append, length_take]
      omega
    have hf := Decodes.cancel (hs.trans hc) hle
    rwa [take_drop_frame tail (by omega) hw, take_drop_frame tail (by omega) hw, ← hsix,
      hr] at hf
  | startup hss hca hre =>
    have hb := take_drop_frame tail (i := 8) (j := startupLen src - 8) (by omega) hw
    have hf := Decodes.startup (hs ▸ hss) (hs ▸ hca) (by rw [hlen, hb]; exact hre)
    rwa [hs, hlen, drop_drop, show 8 + (startupLen src - 8) = startupLen src by omega, hr] at hf

/-- A startup frame is removed, and alone decides what it is decoded as, just when a
request that is no startup message declares its length. -/
theorem decodeStartup_exact (maxMessageSize : Nat) (src : Bytes) :
    (∀ rest, decodeStartup maxMessageSize src = (.ok none, rest) → rest = src) ∧
      ∀ msg rest, decodeStartup maxMessageSize src = (.ok (some msg), rest) →
        (Exact maxMessageSize src msg rest ↔ SizedRequest src) := by
  refine ⟨fun rest => decodeStartup_none, fun msg rest hdecoded => ?_⟩
  obtain ⟨hsmall, hlarge, hwithin, hdecodes⟩ := decodeStartup_some.mp hdecoded
  constructor
  · intro hexact
    have hremoved := congrArg List.length hexact.removed
    rw [length_append, length_take] at hremoved
    cases hdecodes with
    | ssl hcode =>
      rw [length_drop] at hremoved
      refine ⟨fun _ => by omega, fun hother => ?_⟩
      rw [hcode] at hother
      cases hother
    | cancel hcode hlong =>
      rw [length_drop] at hremoved
      refine ⟨fun hother => ?_, fun _ => by omega⟩
      rw [hcode] at hother
      cases hother
    | startup hssl hcancel hread =>
      exact ⟨fun hcode => absurd hcode hssl, fun hcode => absurd hcode hcancel⟩
  · intro hsized
    have hagain := hdecodes.frame hlarge hwithin hsized (src.drop (startupLen src))
    rw [take_append_drop] at hagain
    have hsame := decodeStartup_some.mpr ⟨hsmall, hlarge, hwithin, hagain⟩
    rw [hdecoded] at hsame
    obtain rfl := (Prod.mk.inj hsame).2
    refine ⟨hwithin, (take_append_drop _ _).symm, fun tail => decodeStartup_some.mpr ?_⟩
    have hlen := startupLen_frame hlarge hwithin tail
    refine ⟨by rw [hlen]; exact hsmall, by rw [hlen]; exact hlarge, ?_, hdecodes.frame hlarge hwithin hsized tail⟩
    rw [length_append, length_take]
    omega

/-- A cancel request that declares 8 bytes takes the next 8 of the buffer for its key. -/
theorem not_decodeStartup_exact :
    let src : Bytes := [0, 0, 0, 8, 4, 210, 22, 46, 0, 0, 0, 1, 0, 0, 0, 2]
    decodeStartup 100 src = (.ok (some (.cancelRequest 1 2)), []) ∧ startupLen src = 8 ∧
      ¬ ∃ msg rest, Exact 100 src msg rest := by
  refine ⟨by decide, by decide, ?_⟩
  rintro ⟨msg, rest, hexact⟩
  have hnone := hexact.only []
  have hshort : decodeStartup 100 [0, 0, 0, 8, 4, 210, 22, 46] =
      (.error (.protocol "CancelRequest length 8 too short for pid+key (need at least 16)"), []) := by
    decide
  cases hnone

end HeliosProxy.Protocol
