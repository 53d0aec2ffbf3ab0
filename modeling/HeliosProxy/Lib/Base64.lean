import HeliosProxy.Lib.Bytes

/-!
# Base64

An encoding of bytes in base64's alphabet that can be read back, and the standard one:
three bytes are four characters, and the last group is padded.
-/

namespace HeliosProxy.Wire

def isBase64 (c : Char) : Bool := c.isAlphanum || c == '+' || c == '/' || c == '='

structure Base64 where
  encode : Bytes → List Char
  decode : List Char → Option Bytes
  decode_encode : ∀ b, decode (encode b) = some b
  alphabet : ∀ b, (encode b).all isBase64 = true

namespace Base64

def digit (n : Nat) : Char :=
  if n < 26 then Char.ofNat (65 + n)
  else if n < 52 then Char.ofNat (97 + (n - 26))
  else if n < 62 then Char.ofNat (48 + (n - 52))
  else if n = 62 then '+' else '/'

def value (c : Char) : Option Nat :=
  if c.isUpper then some (c.toNat - 65)
  else if c.isLower then some (c.toNat - 97 + 26)
  else if c.isDigit then some (c.toNat - 48 + 52)
  else if c == '+' then some 62
  else if c == '/' then some 63 else none

def encodeStd : Bytes → List Char
  | [] => []
  | [a] => [digit (a.toNat / 4), digit (a.toNat % 4 * 16), '=', '=']
  | [a, b] => [digit (a.toNat / 4), digit (a.toNat % 4 * 16 + b.toNat / 16),
      digit (b.toNat % 16 * 4), '=']
  | a :: b :: c :: rest =>
    digit (a.toNat / 4) :: digit (a.toNat % 4 * 16 + b.toNat / 16) ::
      digit (b.toNat % 16 * 4 + c.toNat / 64) :: digit (c.toNat % 64) :: encodeStd rest

/-- The bytes of a last group.  Bits that are no part of a byte must not be set. -/
def decodeLast (w x y z : Char) : Option Bytes :=
  match value w, value x, value y, value z with
  | some w, some x, none, none =>
    if y = '=' ∧ z = '=' ∧ x % 16 = 0 then some [UInt8.ofNat (w * 4 + x / 16)] else none
  | some w, some x, some y, none =>
    if z = '=' ∧
      y % 4 = 0 then some [UInt8.ofNat (w * 4 + x / 16), UInt8.ofNat (x % 16 * 16 + y / 4)]
      else none
  | some w, some x, some y, some z =>
    some [UInt8.ofNat (w * 4 + x / 16), UInt8.ofNat (x % 16 * 16 + y / 4),
      UInt8.ofNat (y % 4 * 64 + z)]
  | _, _, _, _ => none

def decodeStd : List Char → Option Bytes
  | [] => some []
  | [w, x, y, z] => decodeLast w x y z
  | w :: x :: y :: z :: rest =>
    match value w, value x, value y, value z with
    | some w, some x, some y, some z =>
      (decodeStd rest).map fun b =>
        UInt8.ofNat (w * 4 + x / 16) :: UInt8.ofNat (x % 16 * 16 + y / 4) :: UInt8.ofNat
          (y % 4 * 64 + z) :: b
    | _, _, _, _ => none
  | _ => none

theorem value_digit {n : Nat} (hs : n < 64) : value (digit n) = some n := by
  interval_cases n <;> decide

theorem isBase64_digit {n : Nat} (hs : n < 64) : isBase64 (digit n) := by
  interval_cases n <;> decide

theorem decodeStd_group {a b c : UInt8} {rest : List Char} {bytes : Bytes}
    (hr : decodeStd rest = some bytes) :
    decodeStd (digit (a.toNat / 4) :: digit (a.toNat % 4 * 16 + b.toNat / 16) ::
      digit (b.toNat % 16 * 4 + c.toNat / 64) :: digit (c.toNat % 64) :: rest) =
        some (a :: b :: c :: bytes) := by
  have ha := a.toNat_lt
  have hb := b.toNat_lt
  have hc := c.toNat_lt
  have hf : UInt8.ofNat (a.toNat / 4 * 4 + (a.toNat % 4 * 16 + b.toNat / 16) / 16) = a := by
    rw [show a.toNat / 4 * 4 + (a.toNat % 4 * 16 + b.toNat / 16) / 16 = a.toNat by omega,
      UInt8.ofNat_toNat]
  have hs : UInt8.ofNat
    ((a.toNat % 4 * 16 + b.toNat / 16) % 16 * 16 + (b.toNat % 16 * 4 + c.toNat / 64) / 4) = b := by
    rw [show (a.toNat % 4 * 16 + b.toNat / 16) % 16 * 16 + (b.toNat % 16 * 4 + c.toNat / 64) / 4 =
      b.toNat by omega, UInt8.ofNat_toNat]
  have ht : UInt8.ofNat ((b.toNat % 16 * 4 + c.toNat / 64) % 4 * 64 + c.toNat % 64) = c := by
    rw [show (b.toNat % 16 * 4 + c.toNat / 64) % 4 * 64 + c.toNat % 64 = c.toNat by omega,
      UInt8.ofNat_toNat]
  have hv := And.intro (value_digit (show a.toNat / 4 < 64 by omega))
    (And.intro (value_digit (show a.toNat % 4 * 16 + b.toNat / 16 < 64 by omega))
    (And.intro (value_digit (show b.toNat % 16 * 4 + c.toNat / 64 < 64 by omega))
    (value_digit (show c.toNat % 64 < 64 by omega))))
  cases rest with
  | nil =>
    cases hr
    simp only [decodeStd, decodeLast, hv, hf, hs, ht]
  | cons d rest => simp only [decodeStd, hv, hr, Option.map_some, hf, hs, ht]

theorem decodeStd_encodeStd (b : Bytes) : decodeStd (encodeStd b) = some b := by
  fun_induction encodeStd b with
  | case1 => rfl
  | case2 a =>
    have ha := a.toNat_lt
    have hby : UInt8.ofNat (a.toNat / 4 * 4 + a.toNat % 4 * 16 / 16) = a := by
      rw [show a.toNat / 4 * 4 + a.toNat % 4 * 16 / 16 = a.toNat by omega, UInt8.ofNat_toNat]
    have hp : value '=' = none := rfl
    simp only [decodeStd, decodeLast, value_digit (show a.toNat / 4 < 64 by omega),
      value_digit (show a.toNat % 4 * 16 < 64 by omega), hp, true_and, hby]
    rw [if_pos (by omega)]
  | case3 a b =>
    have ha := a.toNat_lt
    have hb := b.toNat_lt
    have hf : UInt8.ofNat (a.toNat / 4 * 4 + (a.toNat % 4 * 16 + b.toNat / 16) / 16) = a := by
      rw [show a.toNat / 4 * 4 + (a.toNat % 4 * 16 + b.toNat / 16) / 16 = a.toNat by omega,
        UInt8.ofNat_toNat]
    have hs : UInt8.ofNat
      ((a.toNat % 4 * 16 + b.toNat / 16) % 16 * 16 + b.toNat % 16 * 4 / 4) = b := by
      rw [show (a.toNat % 4 * 16 + b.toNat / 16) % 16 * 16 + b.toNat % 16 * 4 / 4 =
        b.toNat by omega, UInt8.ofNat_toNat]
    have hp : value '=' = none := rfl
    simp only [decodeStd, decodeLast, value_digit (show a.toNat / 4 < 64 by omega),
      value_digit (show a.toNat % 4 * 16 + b.toNat / 16 < 64 by omega),
      value_digit (show b.toNat % 16 * 4 < 64 by omega), hp, true_and, hf, hs]
    rw [if_pos (by omega)]
  | case4 a b c rest ih => exact decodeStd_group ih

theorem all_encodeStd (b : Bytes) : (encodeStd b).all isBase64 := by
  fun_induction encodeStd b with
  | case1 => rfl
  | case2 a =>
    have ha := a.toNat_lt
    have hp : isBase64 '=' := rfl
    simp only [List.all_cons, List.all_nil, isBase64_digit (show a.toNat / 4 < 64 by omega),
      isBase64_digit (show a.toNat % 4 * 16 < 64 by omega), hp, Bool.and_self]
  | case3 a b =>
    have ha := a.toNat_lt
    have hb := b.toNat_lt
    have hp : isBase64 '=' := rfl
    simp only [List.all_cons, List.all_nil, isBase64_digit (show a.toNat / 4 < 64 by omega),
      isBase64_digit (show a.toNat % 4 * 16 + b.toNat / 16 < 64 by omega),
      isBase64_digit (show b.toNat % 16 * 4 < 64 by omega), hp, Bool.and_self]
  | case4 a b c rest ih =>
    have ha := a.toNat_lt
    have hb := b.toNat_lt
    have hc := c.toNat_lt
    simp only [List.all_cons, isBase64_digit (show a.toNat / 4 < 64 by omega),
      isBase64_digit (show a.toNat % 4 * 16 + b.toNat / 16 < 64 by omega),
      isBase64_digit (show b.toNat % 16 * 4 + c.toNat / 64 < 64 by omega),
      isBase64_digit (show c.toNat % 64 < 64 by omega), ih, Bool.and_self]

def standard : Base64 := ⟨encodeStd, decodeStd, decodeStd_encodeStd, all_encodeStd⟩

example : standard.encode [110, 44, 44] = "biws".toList := by decide

end Base64

end HeliosProxy.Wire
