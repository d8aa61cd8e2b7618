import Multicloud.Text.Numeral

namespace Multicloud

/-- A double. A finite one is `mantissa * 2 ^ exponent`, with `2 ^ 52 ≤ mantissa < 2 ^ 53` or the
least exponent, `-1074`. -/
inductive Binary64 where
  | finite (negative : Bool) (mantissa : Nat) (exponent : Int)
  | infinite (negative : Bool)
  | nan
  deriving DecidableEq, Repr

namespace Binary64

/-- Equality of values: the two zeros are equal, and here the one `nan` equals itself. -/
def sameValue : Binary64 → Binary64 → Bool
  | finite _ 0 _, finite _ 0 _ => true
  | a, b => a = b

/-- The integer nearest to a quotient, the even one of two. -/
def roundDiv (num den : Nat) : Nat :=
  let q := num / den
  let r := num % den
  if 2 * r < den then q else if den < 2 * r then q + 1 else q + q % 2

def power (base : Nat) (e : Int) : Nat × Nat :=
  if 0 ≤ e then (Nat.pow base e.toNat, 1) else (1, Nat.pow base (-e).toNat)

def pow2 (e : Int) : Nat × Nat := power 2 e

def pow10 (e : Int) : Nat × Nat := power 10 e

def leastMantissa : Nat := 4503599627370496

/-- The double nearest to `num / den`, for a positive quotient. -/
def ofQuotient (negative : Bool) (num den : Nat) : Binary64 :=
  let guess : Int := (num.log2 : Int) - den.log2 - 52
  let scaled (e : Int) : Nat × Nat := let p := pow2 e; (num * p.2, den * p.1)
  let low := max (-1074) (guess - 1)
  let s := scaled low
  let e := if s.1 / s.2 < 2 * leastMantissa then low
    else if s.1 / (2 * s.2) < 2 * leastMantissa then low + 1 else low + 2
  let s := scaled e
  let m := roundDiv s.1 s.2
  let (m, e) := if m = 2 * leastMantissa then (leastMantissa, e + 1) else (m, e)
  if 971 < e then infinite negative else finite negative m e

def decimalLength (n : Nat) : Nat := (Nat.toDigits 10 n).length

/-- The double nearest to `digits * 10 ^ exponent`. Far outside the range of doubles the power is
not worked out. -/
def ofDecimal (negative : Bool) (digits : Nat) (exponent : Int) : Binary64 :=
  let zero := finite negative 0 (-1074)
  if digits = 0 then zero
  else
    let magnitude : Int := decimalLength digits + exponent
    if 310 < magnitude then infinite negative
    else if magnitude < -330 then zero
    else
      let p := pow10 exponent
      ofQuotient negative (digits * p.1) p.2

def exponent? (s : List Char) : Option Int :=
  match s with
  | [] => some 0
  | c :: rest =>
    if c = 'e' ∨ c = 'E' then
      match rest with
      | '-' :: ds => (Text.readNat 10 ds).map fun n ↦ -(n : Int)
      | '+' :: ds => (Text.readNat 10 ds).map Int.ofNat
      | ds => (Text.readNat 10 ds).map Int.ofNat
    else none

/-- A decimal numeral without a sign: digits, a point among or around them at most, and an
exponent at most. -/
def ofUnsigned? (negative : Bool) (s : List Char) : Option Binary64 :=
  let whole := s.takeWhile Char.isDigit
  let (fraction, rest) := match s.dropWhile Char.isDigit with
    | '.' :: rest => (rest.takeWhile Char.isDigit, rest.dropWhile Char.isDigit)
    | rest => ([], rest)
  do
    let digits ← Text.readNat 10 (whole ++ fraction)
    let e ← exponent? rest
    return ofDecimal negative digits (e - fraction.length)

def ofText? (s : List Char) : Option Binary64 :=
  match s with
  | '-' :: rest => ofUnsigned? true rest
  | '+' :: rest => ofUnsigned? false rest
  | rest => ofUnsigned? false rest

def isFinite : Binary64 → Bool
  | finite .. => true
  | _ => false

end Binary64

end Multicloud
