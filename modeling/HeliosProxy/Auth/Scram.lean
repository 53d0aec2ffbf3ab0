import HeliosProxy.Lib.Base64
import HeliosProxy.Lib.Bytes
import HeliosProxy.Text.Find

/-!
# SCRAM-SHA-256

The proxy plays both parts of the exchange: `Scram` logs in at a backend, `ScramServer`
checks a client's password against a verifier.  Each side builds the authentication
message from the texts it has sent and received, and splits those at commas.

The hash functions are parameters, as no result depends on what they compute.  What the
decoders say about malformed input is left out of the error texts.
-/

namespace HeliosProxy.Auth

open Text Wire Decimal List Option

/-- `[u8; 32]`. -/
def Digest := { b : Bytes // b.length = 32 }

structure Crypto where
  sha256 : Bytes → Digest
  hmacSha256 : Bytes → Bytes → Digest
  pbkdf2HmacSha256 : Bytes → Bytes → UInt32 → Digest

namespace Digest

def zero : Digest := ⟨List.replicate 32 0, rfl⟩

def xor (a b : Digest) : Digest := ⟨List.zipWith (· ^^^ ·) a.1 b.1, by simp [a.2, b.2]⟩

def constantTimeEq (a b : Digest) : Bool := (List.zipWith (· ^^^ ·) a.1 b.1).foldl (· ||| ·) 0 == 0

end Digest

/-! ## Texts -/

def asBytes (s : Str) : Bytes := (String.ofList s).toUTF8.data.toList

def fromUtf8 (b : Bytes) : Option Str := (String.fromUTF8? ⟨b.toArray⟩).map String.toList

/-- `strip_prefix`. -/
def stripStart (start s : Str) : Option Str :=
  if start.isPrefixOf s then some (s.drop start.length) else none

def splitOnce (c : Char) (s : Str) : Option (Str × Str) :=
  match s.dropWhile (· ≠ c) with
  | [] => none
  | _ :: after => some (s.takeWhile (· ≠ c), after)

/-- The text before the last occurrence of `needle` (`rfind`), and behind it. -/
def splitLast (needle s : Str) : Option (Str × Str) :=
  (findSub needle.reverse s.reverse).map fun (after, before) =>
    ((before.drop needle.length).reverse, after.reverse)

def findField (start s : Str) : Option Str := (splitOn (· == ',') s).findSome? (stripStart start)

/-! ## The client -/

structure Scram where
  clientFirstBare : Str
  nonce : Str
  serverKey : Digest
  authMessage : Str
  finalised : Bool

/-- The fields of a server-first message; of several with one name the last counts. -/
structure ServerFirst where
  nonce : Option Str
  saltB64 : Option Str
  iterations : Option UInt32

def ServerFirst.read (fields : ServerFirst) (field : Str) : ServerFirst :=
  match stripStart "r=" field with
  | some rest => { fields with nonce := some rest }
  | none =>
    match stripStart "s=" field with
    | some rest => { fields with saltB64 := some rest }
    | none =>
      match stripStart "i=" field with
      | some rest => { fields with iterations := (parseBelow (2 ^ 32) rest).map UInt32.ofNat }
      | none => fields

def ServerFirst.parse (s : Str) : ServerFirst :=
  (splitOn (· == ',') s).foldl read ⟨none, none, none⟩

def orElse {α : Type} (error : String) : Option α → Except String α
  | some a => .ok a
  | none => .error error

variable {β : Type}

def ensure (holds : Bool) (error : String) : Except String Unit :=
  if holds then .ok () else .error error

theorem bind_eq_ok {α : Type} {x : Except String α} {f : α → Except String β} {b : β} :
    (x >>= f) = .ok b ↔ ∃ a, x = .ok a ∧ f a = .ok b := by
  cases x with
  | error e =>
    constructor
    · rintro ⟨⟩
    · rintro ⟨_, ⟨⟩, _⟩
  | ok a =>
    constructor
    · exact fun hr => ⟨a, rfl, hr⟩
    · rintro ⟨_, ⟨⟩, hr⟩
      exact hr

@[simp] theorem orElse_some_bind {α : Type} (error : String) (a : α) (f : α → Except String β) :
    (orElse error (some a) >>= f) = f a := rfl

@[simp] theorem ensure_bind (error : String) (f : Unit → Except String β) :
    (ensure true error >>= f) = f () := rfl

theorem ok_bind {α : Type} (a : α) (f : α → Except String β) : (Except.ok a >>= f) = f a := rfl

namespace Scram

/-- `client_first`: the payload of a SASL initial response. -/
def clientFirst (nonce : Str) : Scram × Bytes :=
  let clientFirstBare := "n=,r=" ++ nonce
  let clientFirst := asBytes ("n,," ++ clientFirstBare)
  (⟨clientFirstBare, nonce, .zero, [], false⟩,
    asBytes "SCRAM-SHA-256\x00" ++ toBeBytes (UInt32.ofNat clientFirst.length) ++ clientFirst)

variable (H : Crypto) (B : Base64)

def clientFinal (c : Scram) (serverFirst : Bytes) (password : Str) :
    Except String (Scram × Bytes) := do
  let serverFirstStr ← orElse "server-first is not UTF-8" (fromUtf8 serverFirst)
  let fields := ServerFirst.parse serverFirstStr
  let serverNonce ← orElse "missing r= in server-first" fields.nonce
  let saltB64 ← orElse "missing s= in server-first" fields.saltB64
  let iterations ← orElse "missing/invalid i= in server-first" fields.iterations
  ensure (c.nonce.isPrefixOf serverNonce) "server nonce does not extend client nonce"
  ensure (1 ≤ iterations) "iteration count must be >= 1"
  let salt ← orElse "bad salt base64" (B.decode saltB64)
  let saltedPassword := H.pbkdf2HmacSha256 (asBytes password) salt iterations
  let clientKey := H.hmacSha256 saltedPassword.1 (asBytes "Client Key")
  let storedKey := H.sha256 clientKey.1
  let serverKey := H.hmacSha256 saltedPassword.1 (asBytes "Server Key")
  let withoutProof := "c=" ++ B.encode (asBytes "n,,") ++ ",r=" ++ serverNonce
  let authMessage := c.clientFirstBare ++ "," ++ serverFirstStr ++ "," ++ withoutProof
  let clientSignature := H.hmacSha256 storedKey.1 (asBytes authMessage)
  let clientProof := clientKey.xor clientSignature
  return ({ c with serverKey, authMessage, finalised := true },
    asBytes (withoutProof ++ ",p=" ++ B.encode clientProof.1))

def verifyServer (c : Scram) (serverFinal : Bytes) : Except String Unit := do
  ensure c.finalised "verify_server called before client_final"
  let s ← orElse "server-final is not UTF-8" (fromUtf8 serverFinal)
  if let some error := stripStart "e=" s then throw ("server reported: " ++ String.ofList error)
  let signature ← orElse "missing v= in server-final" (stripStart "v=" s)
  let received ← orElse "bad v= base64" (B.decode ((splitOn (· == ',') signature).headD []))
  ensure (received ==
    (H.hmacSha256 c.serverKey.1 (asBytes c.authMessage)).1) "server signature mismatch"

end Scram

/-! ## The server -/

structure ScramVerifier where
  salt : Bytes
  iterations : UInt32
  storedKey : Digest
  serverKey : Digest

structure ScramServer where
  verifier : ScramVerifier
  combinedNonce : Str
  clientFirstBare : Str
  serverFirst : Str

/-- `to [u8; 32]` of bytes. -/
def Digest.ofBytes (b : Bytes) : Option Digest := if h : b.length = 32 then some ⟨b, h⟩ else none

namespace ScramVerifier

variable (H : Crypto) (B : Base64)

def fromPassword (password : Str) (salt : Bytes) (iterations : UInt32) : ScramVerifier :=
  let salted := H.pbkdf2HmacSha256 (asBytes password) salt iterations
  let clientKey := H.hmacSha256 salted.1 (asBytes "Client Key")
  ⟨salt, iterations, H.sha256 clientKey.1, H.hmacSha256 salted.1 (asBytes "Server Key")⟩

/-- `parse`: a verifier as PostgreSQL stores it. -/
def parse (s : Str) : Option ScramVerifier := do
  let rest ← stripStart "SCRAM-SHA-256$" s
  let (params, keys) ← splitOnce '$' rest
  let (iterStr, saltB64) ← splitOnce ':' params
  let (storedB64, serverB64) ← splitOnce ':' keys
  let iterations ← parseBelow (2 ^ 32) iterStr
  let salt ← B.decode (trim saltB64)
  let stored ← B.decode (trim storedB64)
  let server ← B.decode (trim serverB64)
  let storedKey ← Digest.ofBytes stored
  let serverKey ← Digest.ofBytes server
  return ⟨salt, UInt32.ofNat iterations, storedKey, serverKey⟩

def stored (v : ScramVerifier) : Str :=
  "SCRAM-SHA-256$" ++ Nat.toDigits 10 v.iterations.toNat ++ ":" ++ B.encode v.salt ++ "$" ++
    B.encode v.storedKey.1 ++ ":" ++ B.encode v.serverKey.1

end ScramVerifier

namespace ScramServer

variable (H : Crypto) (B : Base64)

/-- `start`.  The header in front of the second comma is not looked at. -/
def start (verifier : ScramVerifier) (clientFirst serverNonce : Str) :
    Except String (ScramServer × Str) := do
  let bare ← orElse "malformed client-first (no bare part)"
    ((splitOnce ',' clientFirst).bind fun (_, rest) => (splitOnce ',' rest).map (·.2))
  let clientNonce ← orElse "client-first missing r=" (findField "r=" bare)
  ensure (!clientNonce.isEmpty) "empty client nonce"
  let combinedNonce := clientNonce ++ serverNonce
  let serverFirst := "r=" ++ combinedNonce ++ ",s=" ++ B.encode verifier.salt ++ ",i=" ++
    Nat.toDigits 10 verifier.iterations.toNat
  return (⟨verifier, combinedNonce, bare, serverFirst⟩, serverFirst)

def finish (s : ScramServer) (clientFinal : Str) : Except String Str := do
  let (withoutProof, proofB64) ← orElse "client-final missing p=" (splitLast ",p=" clientFinal)
  let echoedNonce ← orElse "client-final missing r=" (findField "r=" withoutProof)
  ensure (echoedNonce == s.combinedNonce) "nonce mismatch"
  let proof ← orElse "bad proof base64" (B.decode (trim proofB64))
  let proof ← orElse "proof wrong length" (Digest.ofBytes proof)
  let authMessage := s.clientFirstBare ++ "," ++ s.serverFirst ++ "," ++ withoutProof
  let clientSignature := H.hmacSha256 s.verifier.storedKey.1 (asBytes authMessage)
  let clientKey := proof.xor clientSignature
  ensure ((H.sha256 clientKey.1).constantTimeEq
    s.verifier.storedKey) "authentication failed (proof mismatch)"
  let serverSignature := H.hmacSha256 s.verifier.serverKey.1 (asBytes authMessage)
  return "v=" ++ B.encode serverSignature.1

end ScramServer

/-- The client's first message in a SASL initial response, as `proxy_scram_auth` reads it
off. -/
def saslPayload (init : Bytes) : Except String Str :=
  match init.dropWhile (· ≠ 0) with
  | [] => .error "malformed SASLInitialResponse (no mechanism)"
  | behind =>
    if behind.length < 5 then .error "short SASLInitialResponse"
    else orElse "client-first not UTF-8" (fromUtf8 (behind.drop 5))

/-- The whole exchange between `Scram` and `ScramServer`. -/
def exchange (H : Crypto) (B : Base64) (verifier : ScramVerifier)
    (password clientNonce serverNonce : Str) :
    Except String Unit := do
  let first := Scram.clientFirst clientNonce
  let clientFirst ← saslPayload first.2
  let (server, serverFirst) ← ScramServer.start B verifier clientFirst serverNonce
  let (client, message) ← first.1.clientFinal H B (asBytes serverFirst) password
  let clientFinal ← orElse "client-final not UTF-8" (fromUtf8 message)
  let serverFinal ← server.finish H B clientFinal
  client.verifyServer H B (asBytes serverFinal)

/-! ## Texts that are read back -/

theorem fromUtf8_asBytes (s : Str) : fromUtf8 (asBytes s) = some s := by
  have hb : (⟨(String.ofList s).toUTF8.data.toList.toArray⟩ : ByteArray) =
    (String.ofList s).toByteArray := rfl
  rw [fromUtf8, asBytes, hb, String.fromUTF8?, dif_pos (String.ofList s).isValidUTF8]
  exact congrArg some String.toList_ofList

theorem stripStart_append (start s : Str) : stripStart start (start ++ s) = some s := by
  have hpre : start.isPrefixOf (start ++ s) := isPrefixOf_iff_prefix.mpr (prefix_append _ _)
  rw [stripStart, if_pos hpre, drop_left]

variable {c : Char} {a : Str}

theorem splitOnce_append (hf : c ∉ a) (b : Str) : splitOnce c (a ++ c :: b) = some (a, b) := by
  have ha : ∀ x ∈ a, decide (x ≠ c) := fun x hm => decide_eq_true fun hs => hf (hs ▸ hm)
  rw [splitOnce, dropWhile_append_of_pos ha, dropWhile_cons_of_neg (by simp)]
  simp only [takeWhile_append_of_pos ha]
  rw [takeWhile_cons_of_neg (by simp), List.append_nil]

theorem splitLast_append {b : Str} (needle : Str) (hf : c ∉ b) (ho : c ∉ needle) :
    splitLast (c :: needle) (a ++ c :: needle ++ b) = some (a, b) := by
  have hoc : ¬ (c :: needle).reverse <:+: b.reverse ++ (c :: needle).reverse.dropLast := by
    intro hw
    have hm := hw.subset (mem_reverse.mpr (mem_cons_self : c ∈ c :: needle))
    rw [reverse_cons, dropLast_concat, mem_append, mem_reverse, mem_reverse] at hm
    exact hm.elim hf ho
  rw [splitLast, reverse_append, reverse_append, findSub_first _ (by simp) hoc]
  have hb : ((c :: needle).reverse ++ a.reverse).drop (c :: needle).length = a.reverse :=
    drop_left' length_reverse
  simp only [map_some, hb, reverse_reverse]

namespace Digest

theorem xor_xor (a b : Digest) : (a.xor b).xor b = a := by
  apply Subtype.ext
  apply ext_getElem
  · simp [xor, a.2, b.2]
  · intro i _ _
    simp only [xor, getElem_zipWith, UInt8.xor_assoc, UInt8.xor_self, UInt8.xor_zero]

theorem constantTimeEq_self (a : Digest) : a.constantTimeEq a := by
  have hs (l : Bytes) : (List.zipWith (· ^^^ ·) l l).foldl (· ||| ·) 0 = 0 := by
    induction l with
    | nil => rfl
    | cons x l ih => rw [zipWith_cons_cons, foldl_cons, UInt8.xor_self, UInt8.or_self, ih]
  rw [constantTimeEq, hs]
  rfl

theorem ofBytes_val (a : Digest) : ofBytes a.1 = some a := dif_pos a.2

end Digest

/-! ## A client of the proxy at a server of the proxy -/

section Exchange

variable {H : Crypto} {B : Base64}

theorem notMem_encode (hf : isBase64 c = false) (b : Bytes) : c ∉ B.encode b := by
  intro hm
  have hi := List.all_eq_true.mp (B.alphabet b) c hm
  rw [hf] at hi
  cases hi

theorem trim_encode (b : Bytes) : trim (B.encode b) = B.encode b := by
  refine trim_of_all (List.all_eq_true.mpr fun c hm => ?_)
  have hi := List.all_eq_true.mp (B.alphabet b) c hm
  have ha : isAscii c := by
    simp only [isBase64, Char.isAlphanum, Char.isAlpha, Char.isUpper, Char.isLower, Char.isDigit,
      Bool.or_eq_true,
      Bool.and_eq_true, decide_eq_true_eq, beq_iff_eq, ge_iff_le, UInt32.le_iff_toNat_le] at hi
    have hb : c.toNat < 128 := by
      rcases hi with (((((⟨-, hle⟩ | ⟨-, hle⟩) | ⟨-, hle⟩) | rfl) | rfl) | rfl)
      all_goals first | exact Nat.lt_of_le_of_lt hle (by decide) | decide
    exact decide_eq_true hb
  revert hi
  exact isAscii_forall (fun c => isBase64 c = true → (!isWhitespace c)) (by decide) ha

theorem notMem_toDigits (hf : c.isDigit = false) (n : Nat) : c ∉ Nat.toDigits 10 n := by
  intro hm
  rw [Nat.isDigit_of_mem_toDigits (by decide) (by decide) hm] at hf
  cases hf

theorem splitOn_commas (hf : ',' ∉ a) (s : Str) :
    splitOn (· == ',') (a ++ ',' :: s) = a :: splitOn (· == ',') s := by
  refine splitOn_word_append (List.all_eq_true.mpr fun c hm => ?_) rfl s
  simpa using fun hs : c = ',' => hf (hs ▸ hm)

theorem splitOn_last (hf : ',' ∉ a) : splitOn (· == ',') a = [a] := by
  refine splitOn_word (List.all_eq_true.mpr fun c hm => ?_)
  simpa using fun hs : c = ',' => hf (hs ▸ hm)

theorem saslPayload_frame {mechanism len : Bytes} (hf : 0 ∉ mechanism)
    (hfo : len.length = 4) (s : Str) :
    saslPayload (mechanism ++ 0 :: (len ++ asBytes s)) = .ok s := by
  have hs : (mechanism ++ 0 :: (len ++ asBytes s)).dropWhile (· ≠ 0) = 0 :: (len ++ asBytes s) := by
    have ha : ∀ b ∈ mechanism, decide (b ≠ 0) := fun b hm => decide_eq_true fun hsa => hf (hsa ▸ hm)
    rw [dropWhile_append_of_pos ha, dropWhile_cons_of_neg (by simp)]
  have hl : ¬ (0 :: (len ++ asBytes s)).length < 5 := by
    simp only [length_cons, length_append]
    omega
  have hp : (0 :: (len ++ asBytes s)).drop 5 = asBytes s := by
    rw [drop_succ_cons, ← hfo, drop_left]
  simp only [saslPayload, hs, if_neg hl, hp, fromUtf8_asBytes, orElse]

theorem saslPayload_clientFirst (nonce : Str) :
    saslPayload (Scram.clientFirst nonce).2 = .ok ("n,,n=,r=" ++ nonce) := by
  have hm : asBytes "SCRAM-SHA-256\x00" =
      [83, 67, 82, 65, 77, 45, 83, 72, 65, 45, 50, 53, 54] ++ [0] := by decide
  simp only [Scram.clientFirst, hm, append_assoc]
  exact saslPayload_frame (by decide) rfl _

def serverFirstOf (B : Base64) (v : ScramVerifier) (nonce : Str) : Str :=
  "r=" ++ nonce ++ ",s=" ++ B.encode v.salt ++ ",i=" ++ Nat.toDigits 10 v.iterations.toNat

variable {clientNonce serverNonce : Str} (v : ScramVerifier)

theorem start_clientFirst (hn : clientNonce ≠ []) (hf : ',' ∉ clientNonce) :
    ScramServer.start B v ("n,,n=,r=" ++ clientNonce) serverNonce =
      .ok (⟨v, clientNonce ++ serverNonce, "n=,r=" ++ clientNonce,
        serverFirstOf B v (clientNonce ++ serverNonce)⟩,
        serverFirstOf B v (clientNonce ++ serverNonce)) := by
  have header : splitOnce ',' ("n,,n=,r=" ++ clientNonce) =
      some (['n'], ',' :: ("n=,r=" ++ clientNonce)) := splitOnce_append (a := ['n']) (by decide) _
  have ha : splitOnce ',' (',' :: ("n=,r=" ++ clientNonce)) = some ([], "n=,r=" ++ clientNonce) :=
    splitOnce_append (a := []) (by decide) _
  have hno : findField "r=" ("n=,r=" ++ clientNonce) = some clientNonce := by
    have hfi : splitOn (· == ',') ("n=,r=".toList ++ clientNonce) =
      ["n=".toList, "r=".toList ++ clientNonce] := by
      rw [show "n=,r=" ++ clientNonce = "n=" ++ ',' :: ("r=" ++ clientNonce) from rfl,
        splitOn_commas (by decide), splitOn_last (by simp [hf])]
    have hu : stripStart "r=" "n=" = none := by decide
    rw [findField, hfi, findSome?_cons, hu, findSome?_cons, stripStart_append]
  have hs : clientNonce.isEmpty = false := by simpa using hn
  simp only [ScramServer.start, header, ha, bind_some, map_some, orElse_some_bind, hno, hs,
    Bool.not_false, ensure_bind]
  rfl

variable {nonce : Str}

theorem parse_serverFirstOf (hf : ',' ∉ nonce) :
    ServerFirst.parse
      (serverFirstOf B v nonce) = ⟨some nonce, some (B.encode v.salt), some v.iterations⟩ := by
  have hfi : splitOn (· == ',') (serverFirstOf B v nonce) = ["r=" ++ nonce, "s=" ++ B.encode v.salt,
      "i=" ++ Nat.toDigits 10 v.iterations.toNat] := by
    rw [show serverFirstOf B v nonce = ("r=" ++ nonce) ++ ',' :: (("s=" ++ B.encode v.salt) ++
        ',' :: ("i=" ++ Nat.toDigits 10 v.iterations.toNat)) by simp [serverFirstOf],
      splitOn_commas (by simp [hf]), splitOn_commas (by simp [notMem_encode (c := ',') rfl]),
      splitOn_last (by simp [notMem_toDigits (c := ',') rfl])]
  have hn (fields : ServerFirst) (x : Str) :
      fields.read ("r=" ++ x) = { fields with nonce := some x } := by
    rw [ServerFirst.read, stripStart_append]
  have hs (fields : ServerFirst) (x : Str) :
      fields.read ("s=" ++ x) = { fields with saltB64 := some x } := by
    have ho : stripStart "r=" ("s=" ++ x) = none := rfl
    rw [ServerFirst.read, ho, stripStart_append]
  have hi (fields : ServerFirst) : fields.read ("i=" ++ Nat.toDigits 10 v.iterations.toNat) =
      { fields with iterations := some v.iterations } := by
    have ho : stripStart "r=" ("i=" ++ Nat.toDigits 10 v.iterations.toNat) = none := rfl
    have hsa : stripStart "s=" ("i=" ++ Nat.toDigits 10 v.iterations.toNat) = none := rfl
    have hb : v.iterations.toNat < 2 ^ 32 := v.iterations.toNat_lt
    simp only [ServerFirst.read, ho, hsa, stripStart_append, parseBelow_toDigits hb, map_some,
      UInt32.ofNat_toNat]
  rw [ServerFirst.parse, hfi, foldl_cons, foldl_cons, foldl_cons, foldl_nil, hn,
    hs, hi]

def withoutProofOf (B : Base64) (nonce : Str) : Str :=
  "c=" ++ B.encode (asBytes "n,,") ++ ",r=" ++ nonce

def authMessageOf (B : Base64) (v : ScramVerifier) (clientNonce serverNonce : Str) : Str :=
  "n=,r=" ++ clientNonce ++ "," ++ serverFirstOf B v (clientNonce ++ serverNonce) ++ "," ++
    withoutProofOf B (clientNonce ++ serverNonce)

def clientKeyOf (H : Crypto) (v : ScramVerifier) (password : Str) : Digest :=
  H.hmacSha256 (H.pbkdf2HmacSha256 (asBytes password) v.salt v.iterations).1 (asBytes "Client Key")

def serverKeyOf (H : Crypto) (v : ScramVerifier) (password : Str) : Digest :=
  H.hmacSha256 (H.pbkdf2HmacSha256 (asBytes password) v.salt v.iterations).1 (asBytes "Server Key")

def proofOf (H : Crypto) (B : Base64) (v : ScramVerifier) (password clientNonce serverNonce : Str) :
    Digest :=
  (clientKeyOf H v password).xor (H.hmacSha256 (H.sha256 (clientKeyOf H v password).1).1
    (asBytes (authMessageOf B v clientNonce serverNonce)))

theorem clientFinal_serverFirst (password : Str)
    (hi : 1 ≤ v.iterations) (hf : ',' ∉ clientNonce ++ serverNonce) :
    (Scram.clientFirst clientNonce).1.clientFinal H B
      (asBytes (serverFirstOf B v (clientNonce ++ serverNonce))) password =
      .ok (⟨"n=,r=" ++ clientNonce, clientNonce, serverKeyOf H v password,
          authMessageOf B v clientNonce serverNonce, true⟩,
        asBytes (withoutProofOf B (clientNonce ++ serverNonce) ++ ",p=" ++
          B.encode (proofOf H B v password clientNonce serverNonce).1)) := by
  have he : clientNonce.isPrefixOf (clientNonce ++ serverNonce) :=
    isPrefixOf_iff_prefix.mpr (prefix_append _ _)
  have hen : decide (1 ≤ v.iterations) := decide_eq_true hi
  simp only [Scram.clientFinal, Scram.clientFirst, fromUtf8_asBytes, orElse_some_bind,
    parse_serverFirstOf v hf, he, hen, ensure_bind, B.decode_encode]
  rfl

/-- A proof made with the client key over what the server has of the exchange is
accepted. -/
theorem finish_of_proof (server : ScramServer) {withoutProof : Str} (clientKey : Digest)
    (hk : server.verifier.storedKey = H.sha256 clientKey.1)
    (hn : findField "r=" withoutProof = some server.combinedNonce) :
    server.finish H B
      (withoutProof ++ ",p=" ++ B.encode (clientKey.xor (H.hmacSha256 (H.sha256 clientKey.1).1
        (asBytes (server.clientFirstBare ++ "," ++ server.serverFirst ++ "," ++
          withoutProof)))).1) =
      .ok ("v=" ++ B.encode (H.hmacSha256 server.verifier.serverKey.1
        (asBytes (server.clientFirstBare ++ "," ++ server.serverFirst ++ "," ++
          withoutProof))).1) := by
  have hp (b : Bytes) : splitLast ",p=" (withoutProof ++ ",p=" ++ B.encode b) =
      some (withoutProof, B.encode b) :=
    splitLast_append "p=" (notMem_encode rfl b) (by decide)
  simp only [ScramServer.finish, hp, orElse_some_bind, hn, beq_self_eq_true, ensure_bind,
    trim_encode,
    B.decode_encode, Digest.ofBytes_val, hk, Digest.xor_xor, Digest.constantTimeEq_self]
  rfl

variable {v : ScramVerifier}

theorem finish_clientFinal (password : Str)
    (hk : v.storedKey = H.sha256 (clientKeyOf H v password).1)
    (hf : ',' ∉ clientNonce ++ serverNonce) :
    ScramServer.finish H B ⟨v, clientNonce ++ serverNonce, "n=,r=" ++ clientNonce,
        serverFirstOf B v (clientNonce ++ serverNonce)⟩
      (withoutProofOf B (clientNonce ++ serverNonce) ++ ",p=" ++
        B.encode (proofOf H B v password clientNonce serverNonce).1) =
      .ok ("v=" ++ B.encode
        (H.hmacSha256 v.serverKey.1 (asBytes (authMessageOf B v clientNonce serverNonce))).1) := by
  refine finish_of_proof _ (clientKeyOf H v password) hk ?_
  have hfi : splitOn (· == ',') (withoutProofOf B (clientNonce ++ serverNonce)) =
      ["c=" ++ B.encode (asBytes "n,,"), "r=" ++ (clientNonce ++ serverNonce)] := by
    rw [show withoutProofOf B (clientNonce ++ serverNonce) = ("c=" ++ B.encode (asBytes "n,,")) ++
        ',' :: ("r=" ++ (clientNonce ++ serverNonce)) by simp [withoutProofOf],
      splitOn_commas (by simp [notMem_encode (c := ',') rfl]), splitOn_last (by simpa using hf)]
  have hb : stripStart "r=" ("c=" ++ B.encode (asBytes "n,,")) = none := rfl
  rw [findField, hfi, findSome?_cons, hb, findSome?_cons, stripStart_append]

theorem verifyServer_finish {bare authMessage : Str} {serverKey : Digest} :
    Scram.verifyServer H B ⟨bare, nonce, serverKey, authMessage, true⟩
      (asBytes ("v=" ++ B.encode (H.hmacSha256 serverKey.1 (asBytes authMessage)).1)) = .ok () := by
  have hw (b : Bytes) : (splitOn (· == ',') (B.encode b)).headD [] = B.encode b := by
    rw [splitOn_last (notMem_encode rfl b), headD_cons]
  have hn (s : Str) : stripStart "e=" ("v=" ++ s) = none := rfl
  simp only [Scram.verifyServer, ensure_bind, fromUtf8_asBytes, orElse_some_bind, hn,
    stripStart_append, hw, B.decode_encode, beq_self_eq_true]
  rfl

theorem exchange_of_keys {password : Str} (hi : 1 ≤ v.iterations)
    (hs : v.storedKey = H.sha256 (clientKeyOf H v password).1)
    (hse : v.serverKey = serverKeyOf H v password) (hn : clientNonce ≠ [])
    (hc : ',' ∉ clientNonce) (hser : ',' ∉ serverNonce) :
    exchange H B v password clientNonce serverNonce = .ok () := by
  have hf : ',' ∉ clientNonce ++ serverNonce := by
    rw [mem_append]
    exact fun hm => hm.elim hc hser
  simp only [exchange, saslPayload_clientFirst, start_clientFirst v hn hc,
    clientFinal_serverFirst v password hi hf, fromUtf8_asBytes, orElse_some_bind, ok_bind,
    finish_clientFinal password hs hf]
  rw [hse]
  exact verifyServer_finish

theorem parse_stored : ScramVerifier.parse B (v.stored B) = some v := by
  have hd (b : Bytes) : '$' ∉ B.encode b := notMem_encode rfl b
  have hc (b : Bytes) : ':' ∉ B.encode b := notMem_encode rfl b
  have hb : v.iterations.toNat < 2 ^ 32 := v.iterations.toNat_lt
  have ht : v.stored B =
    "SCRAM-SHA-256$" ++ ((Nat.toDigits 10 v.iterations.toNat ++ ':' :: B.encode v.salt) ++
      '$' :: (B.encode v.storedKey.1 ++ ':' :: B.encode v.serverKey.1)) := by
    have hs : ":" = [':'] ∧ "$" = ['$'] := ⟨rfl, rfl⟩
    unfold ScramVerifier.stored
    rw [hs.1, hs.2]
    simp only [append_assoc, cons_append, nil_append]
  have hp : splitOnce '$' ((Nat.toDigits 10 v.iterations.toNat ++ ':' :: B.encode v.salt) ++
      '$' :: (B.encode v.storedKey.1 ++ ':' :: B.encode v.serverKey.1)) =
      some (Nat.toDigits 10 v.iterations.toNat ++ ':' :: B.encode v.salt,
        B.encode v.storedKey.1 ++ ':' :: B.encode v.serverKey.1) :=
    splitOnce_append (by simp [hd, notMem_toDigits (c := '$') rfl]) _
  rw [ScramVerifier.parse, ht, stripStart_append]
  simp only [bind_eq_bind, bind_some, hp, splitOnce_append (notMem_toDigits (c := ':') rfl _),
    splitOnce_append (hc _), parseBelow_toDigits hb, trim_encode, B.decode_encode,
    Digest.ofBytes_val, Option.pure_def, UInt32.ofNat_toNat]

end Exchange

/-- A client of the proxy logs in at a server of the proxy with the same password, and the
server proves that it knows its verifier, read from its stored form or not. -/
theorem scram_interoperates (H : Crypto) (B : Base64) (password : Str) (salt : Bytes)
    (iterations : UInt32)
    (hiterated : 1 ≤ iterations) (clientNonce serverNonce : Str)
    (hclientNonempty : clientNonce ≠ [])
    (hclientFree : ',' ∉ clientNonce) (hserverFree : ',' ∉ serverNonce) :
    exchange H B (.fromPassword H password salt iterations) password clientNonce serverNonce = .ok
      () ∧
      ∀ v, ScramVerifier.parse B
        ((ScramVerifier.fromPassword H password salt iterations).stored B) = some v →
        exchange H B v password clientNonce serverNonce = .ok () := by
  have hagrees :
    exchange H B (.fromPassword H password salt iterations) password clientNonce serverNonce =
    .ok () :=
    exchange_of_keys hiterated rfl rfl hclientNonempty hclientFree hserverFree
  refine ⟨hagrees, fun v hparsed => ?_⟩
  rw [parse_stored, Option.some.injEq] at hparsed
  exact hparsed ▸ hagrees

def Crypto.truncating : Crypto where
  sha256 b := ⟨(b ++ List.replicate 32 0).take 32, by simp⟩
  hmacSha256 k b := ⟨(b ++ (k ++ List.replicate 32 0)).take 32, by simp; omega⟩
  pbkdf2HmacSha256 p salt _ := ⟨(p ++ (salt ++ List.replicate 32 0)).take 32, by simp; omega⟩

theorem scram_interoperates_pencil :
    exchange .truncating .standard (.fromPassword .truncating "pencil" [7, 8] 4096) "pencil"
        "rOprNGfwEbeRWgbNEkqO" "%hvYDpWUa2RaTCAfuxFIlj)hNlF" = .ok () ∧
      ∀ v, ScramVerifier.parse .standard
          ((ScramVerifier.fromPassword .truncating "pencil" [7, 8] 4096).stored .standard) =
            some v →
        exchange .truncating .standard v "pencil" "rOprNGfwEbeRWgbNEkqO"
          "%hvYDpWUa2RaTCAfuxFIlj)hNlF" = .ok () :=
  scram_interoperates .truncating .standard "pencil" [7, 8] 4096 (by decide) "rOprNGfwEbeRWgbNEkqO"
    "%hvYDpWUa2RaTCAfuxFIlj)hNlF" (by decide) (by decide) (by decide)

/-! ## The header -/

def gs2Header (clientFirst : Str) : Option Str := do
  let (binding, rest) ← splitOnce ',' clientFirst
  let (authzid, _) ← splitOnce ',' rest
  return binding ++ "," ++ authzid ++ ","

/-- The client asks for no channel binding, and repeats the header it began with. -/
def BindsHeader (B : Base64) (clientFirst clientFinal : Str) : Prop :=
  ∃ header, gs2Header clientFirst = some header ∧ ¬ "p=" <+: header ∧
    "c=".toList ++ B.encode (asBytes header) <+: clientFinal

theorem notMem_splitOn {sep : Char → Bool} {c : Char} (hc : sep c) (s : Str) :
    ∀ t ∈ splitOn sep s, c ∉ t := by
  induction s with
  | nil =>
    rw [Text.splitOn, forall_mem_singleton]
    exact not_mem_nil
  | cons d s ih =>
    rw [Text.splitOn]
    split
    · exact forall_mem_cons.mpr ⟨not_mem_nil, ih⟩
    · rename_i hd
      have hne : c ≠ d := fun he => hd (he ▸ hc)
      split
      · exact forall_mem_singleton.mpr (by simpa using hne)
      · rename_i w ws hs
        rw [hs] at ih
        obtain ⟨hw, hws⟩ := forall_mem_cons.mp ih
        exact forall_mem_cons.mpr ⟨fun hm => (mem_cons.mp hm).elim hne hw, hws⟩

theorem findField_free {start s t : Str} (hf : findField start s = some t) : ',' ∉ t := by
  obtain ⟨field, hm, hs⟩ := exists_of_findSome?_eq_some hf
  obtain ⟨-, ⟨⟩⟩ := Option.ite_none_right_eq_some.mp hs
  exact fun hc => notMem_splitOn rfl s field hm (mem_of_mem_drop hc)

/-- A login that succeeds has echoed the nonce, which is then a field. -/
theorem finish_ok_free {H : Crypto} {B : Base64} {v : ScramVerifier}
    {clientFirst serverNonce clientFinal : Str}
    {serverFirst serverFinal : Str} {server : ScramServer}
    (hs : ScramServer.start B v clientFirst serverNonce = .ok (server, serverFirst))
    (hf : server.finish H B clientFinal = .ok serverFinal) : ',' ∉ serverNonce := by
  obtain ⟨bare, -, hs⟩ := bind_eq_ok.mp hs
  obtain ⟨clientNonce, -, hs⟩ := bind_eq_ok.mp hs
  obtain ⟨_, -, hs⟩ := bind_eq_ok.mp hs
  cases hs
  obtain ⟨⟨withoutProof, proof⟩, -, hf⟩ := bind_eq_ok.mp hf
  obtain ⟨echoed, he, hf⟩ := bind_eq_ok.mp hf
  obtain ⟨_, hn, -⟩ := bind_eq_ok.mp hf
  have hfree : ',' ∉ echoed := by
    revert he
    cases hfield : findField "r=" withoutProof with
    | none => exact nofun
    | some t =>
      rintro ⟨⟩
      exact findField_free hfield
  have hecho : echoed = clientNonce ++ serverNonce := by
    by_contra hne
    rw [ensure, if_neg (by simpa using hne)] at hn
    cases hn
  exact fun hc => hfree (hecho ▸ mem_append_right _ hc)

/-- Whatever the hash functions are, a client with the password that asks for channel binding
and sends no `c=` at all is let in. -/
theorem admits_unbound (H : Crypto) (B : Base64) (password : Str) (salt : Bytes)
    (iterations : UInt32)
    {serverNonce : Str} (hf : ',' ∉ serverNonce) : ∃ clientFinal server serverFirst serverFinal,
    ScramServer.start B
      (.fromPassword H password salt iterations) "p=tls-unique,,n=,r=abc" serverNonce =
        .ok (server, serverFirst) ∧
      server.finish H B clientFinal = .ok serverFinal ∧ ¬ "c=" <+: clientFinal := by
  let v := ScramVerifier.fromPassword H password salt iterations
  have hn : findField "r=" ("r=" ++ ("abc" ++ serverNonce)) = some ("abc" ++ serverNonce) := by
    rw [findField, splitOn_last (by simpa using hf), findSome?_cons, stripStart_append]
  have hfin := finish_of_proof (B := B) ⟨v, "abc" ++ serverNonce, "n=,r=abc",
    serverFirstOf B v ("abc" ++ serverNonce)⟩ (clientKeyOf H v password) rfl hn
  refine ⟨_, _, _, _, rfl, hfin, ?_⟩
  rintro ⟨rest, hsa⟩
  cases congrArg List.head? hsa

/-- The header is bound only where no login succeeds: a nonce of the server with a comma in it
cannot be echoed. -/
theorem scram_binds_header (H : Crypto) (B : Base64) (password : Str) (salt : Bytes)
    (iterations : UInt32) (serverNonce : Str) :
    (∀ clientFirst clientFinal server serverFirst serverFinal,
      ScramServer.start B (.fromPassword H password salt iterations) clientFirst serverNonce =
          .ok (server, serverFirst) →
        server.finish H B clientFinal = .ok serverFinal → BindsHeader B clientFirst clientFinal) ↔
      ',' ∈ serverNonce := by
  refine ⟨fun hbinds => ?_, fun hcomma _ _ _ _ _ hs hf => absurd hcomma (finish_ok_free hs hf)⟩
  by_contra hfree
  obtain ⟨_, _, _, _, hs, hf, hno⟩ := admits_unbound H B password salt iterations hfree
  obtain ⟨_, -, -, hc⟩ := hbinds _ _ _ _ _ hs hf
  exact hno ((prefix_append _ _).trans hc)

theorem not_scram_binds_header : ∃ clientFinal server serverFirst serverFinal,
    ScramServer.start .standard (.fromPassword .truncating "pencil" [7] 4096)
        "p=tls-unique,,n=,r=abc" "def" = .ok (server, serverFirst) ∧
      server.finish .truncating .standard clientFinal = .ok serverFinal ∧ ¬ "c=" <+: clientFinal :=
  admits_unbound .truncating .standard "pencil" [7] 4096 (by decide)

end HeliosProxy.Auth
