import Mathlib

/-!
# Numbers and frames

Sequences of bytes: big-endian and little-endian numbers of a fixed width, and taking a
fixed number of bytes off a buffer.  Unsigned decimal numbers as Rust's `parse` reads
them and as they are formatted.

A reader of frames takes one record off the front of its input or says why it stops.
Read again and again, it gives back the records a text is the frames of, up to the place
where it stops.
-/

namespace HeliosProxy.Wire

abbrev Bytes := List UInt8

def toBeBytes (n : UInt32) : Bytes :=
  [(n >>> 24).toUInt8, (n >>> 16).toUInt8, (n >>> 8).toUInt8, n.toUInt8]

def fromBeBytes (b : Bytes) : UInt32 := b.foldl (fun n d => n * 256 + d.toUInt32) 0

theorem fromBeBytes_toBeBytes (n : UInt32) : fromBeBytes (toBeBytes n) = n := by
  apply UInt32.toNat_inj.1
  simp [fromBeBytes, toBeBytes]
  have := n.toNat_lt
  omega

theorem toBeBytes_fromBeBytes (a b c d : UInt8) :
    toBeBytes (fromBeBytes [a, b, c, d]) = [a, b, c, d] := by
  have ha := a.toNat_lt
  have hb := b.toNat_lt
  have hc := c.toNat_lt
  have hd := d.toNat_lt
  simp only [toBeBytes, List.cons.injEq, and_true, ← UInt8.toNat_inj]
  simp [fromBeBytes, Nat.shiftRight_eq_div_pow]
  omega

/-! ## Little-endian numbers -/

/-- The low `w` bytes of a number, the lowest first. -/
def toLeBytes : Nat → Nat → Bytes
  | 0, _ => []
  | w + 1, n => UInt8.ofNat n :: toLeBytes w (n / 256)

def fromLeBytes : Bytes → Nat
  | [] => 0
  | b :: bs => b.toNat + 256 * fromLeBytes bs

/-- The first `n` bytes and the rest, where there are so many. -/
def takeBytes (n : Nat) (b : Bytes) : Option (Bytes × Bytes) :=
  if b.length < n then none else some (b.take n, b.drop n)

@[simp] theorem length_toLeBytes (w n : Nat) : (toLeBytes w n).length = w := by
  induction w generalizing n with
  | zero => rfl
  | succ w ih => rw [toLeBytes, List.length_cons, ih]

theorem fromLeBytes_toLeBytes (w n : Nat) : fromLeBytes (toLeBytes w n) = n % 256 ^ w := by
  induction w generalizing n with
  | zero => rw [toLeBytes, fromLeBytes, pow_zero, Nat.mod_one]
  | succ w ih =>
    have hl : (UInt8.ofNat n).toNat = n % 256 := UInt8.toNat_ofNat'
    rw [toLeBytes, fromLeBytes, ih, hl, pow_succ', Nat.mod_mul]

theorem takeBytes_append {a b : Bytes} {n : Nat} (hlen : a.length = n) :
    takeBytes n (a ++ b) = some (a, b) := by
  subst hlen
  rw [takeBytes, if_neg (by simp), List.take_left, List.drop_left]

theorem takeBytes_toLeBytes (w n : Nat) (b : Bytes) :
    takeBytes w (toLeBytes w n ++ b) = some (toLeBytes w n, b) :=
  takeBytes_append (length_toLeBytes w n)

theorem takeBytes_eq_some {a b rest : Bytes} {n : Nat} (ht : takeBytes n b = some (a, rest)) :
    b = a ++ rest ∧ a.length = n := by
  obtain ⟨he, ⟨⟩⟩ := Option.ite_none_left_eq_some.mp ht
  exact ⟨(List.take_append_drop n b).symm, List.length_take_of_le (Nat.le_of_not_lt he)⟩

end HeliosProxy.Wire

namespace HeliosProxy.Decimal

/-- `parse` of an unsigned number: digits behind an optional plus sign. -/
def parseBelow (bound : Nat) (s : List Char) : Option Nat :=
  let digits := if s.head? = some '+' then s.tail else s
  if digits.isEmpty || !digits.all Char.isDigit then none
  else
    let n := Nat.ofDigitChars 10 digits 0
    if n < bound then some n else none

theorem parseBelow_toDigits {bound n : Nat} (hb : n < bound) :
    parseBelow bound (Nat.toDigits 10 n) = some n := by
  have hd : (Nat.toDigits 10 n).all Char.isDigit :=
    List.all_eq_true.mpr fun c hm => Nat.isDigit_of_mem_toDigits (by decide) (by decide) hm
  have hu : (Nat.toDigits 10 n).head? ≠ some '+' := by
    intro hs
    have hp := List.all_eq_true.mp hd '+' (List.mem_of_mem_head? hs)
    exact absurd hp (by decide)
  have hn : (Nat.toDigits 10 n).isEmpty = false := by simp
  simp only [parseBelow, if_neg hu, hn, hd, Bool.not_true, Bool.or_self,
    Bool.false_eq_true, if_false]
  rw [Nat.ofDigitChars_toDigits (by decide) (by decide), if_pos hb]

end HeliosProxy.Decimal

namespace HeliosProxy.Framed

variable {α ρ ε : Type*} {read : List α → Except ε (ρ × List α)}

/-- The records at the front of the input, what is left of it, and why the reader
stopped. -/
def readAll (read : List α → Except ε (ρ × List α)) : Nat → List α → List ρ × List α × Option ε
  | 0, s => ([], s, none)
  | fuel + 1, s =>
    match read s with
    | .error e => ([], s, some e)
    | .ok (r, rest) =>
      let (rs, left, e) := readAll read fuel rest
      (r :: rs, left, e)

/-- The frames of `rs` are read back, up to a tail the reader stops at. -/
theorem readAll_frames {enc : ρ → List α} {rs : List ρ} {tail : List α} {e : ε} {fuel : Nat}
    (hread : ∀ r ∈ rs, ∀ rest, read (enc r ++ rest) = .ok (r, rest)) (hstop : read tail = .error e)
    (hfuel : rs.length < fuel) :
    readAll read fuel (rs.flatMap enc ++ tail) = (rs, tail, some e) := by
  induction rs generalizing fuel with
  | nil =>
    obtain ⟨n, rfl⟩ := Nat.exists_eq_succ_of_ne_zero (ne_zero_of_lt hfuel)
    simp only [List.flatMap_nil, List.nil_append, readAll, hstop]
  | cons r rs ih =>
    obtain ⟨n, rfl⟩ := Nat.exists_eq_succ_of_ne_zero (ne_zero_of_lt hfuel)
    obtain ⟨hr, hrs⟩ := List.forall_mem_cons.1 hread
    have hrest := ih hrs (Nat.lt_of_succ_lt_succ hfuel)
    simp only [List.flatMap_cons, List.append_assoc, readAll, hr, hrest]

theorem length_le_frames {enc : ρ → List α} {rs : List ρ} (henc : ∀ r ∈ rs, enc r ≠ []) :
    rs.length ≤ (rs.flatMap enc).length := by
  induction rs with
  | nil => exact le_refl 0
  | cons r rs ih =>
    obtain ⟨hr, hrs⟩ := List.forall_mem_cons.1 henc
    have hpos := List.length_pos_of_ne_nil hr
    have htail := ih hrs
    rw [List.flatMap_cons, List.length_append, List.length_cons]
    omega

end HeliosProxy.Framed
