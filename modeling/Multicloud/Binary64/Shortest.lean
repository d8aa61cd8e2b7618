import Multicloud.Binary64.Basic

namespace Multicloud.Binary64

/-- Positive rationals between which every number is read as the double `m * 2 ^ e`, doubled twice
so that the ends are integers over one denominator; the ends belong to it when `m` is even. -/
structure Interval where
  low : Nat
  value : Nat
  high : Nat
  den : Nat
  closed : Bool

def interval (m : Nat) (e : Int) : Interval :=
  let p := pow2 e
  let gap := if m = leastMantissa ∧ -1074 < e then 1 else 2
  { low := (4 * m - gap) * p.1, value := 4 * m * p.1, high := (4 * m + 2) * p.1
    den := 4 * p.2, closed := m % 2 = 0 }

def Interval.contains (i : Interval) (n : Nat) (k : Int) : Bool :=
  let p := pow10 k
  let x := n * p.1 * i.den
  let low := i.low * p.2
  let high := i.high * p.2
  if i.closed then low ≤ x && x ≤ high else low < x && x < high

def leadingPower (num den : Nat) : Int :=
  if den ≤ num then (decimalLength (num / den) : Int) - 1
  else
    Int.negOfNat (decimalLength ((den + num - 1) / num - 1))

/-- The multiple of `10 ^ k` nearest to the value that lies in the interval, the even one of two. -/
def Interval.onGrid (i : Interval) (k : Int) : Option Nat :=
  let p := pow10 k
  let num := i.value * p.2
  let den := i.den * p.1
  let n := num / den
  let nearest := roundDiv num den
  if i.contains nearest k then some nearest
  else if i.contains n k then some n
  else if i.contains (n + 1) k then some (n + 1)
  else none

def dropZeros : Nat → Nat → Int → Nat × Int
  | 0, n, k => (n, k)
  | fuel + 1, n, k => if n % 10 = 0 then dropZeros fuel (n / 10) (k + 1) else (n, k)

/-- The fewest digits that read back as `m * 2 ^ e`, and the power of ten of the last of them. -/
def shortest (m : Nat) (e : Int) : Nat × Int :=
  let i := interval m e
  let top := leadingPower i.value i.den
  let found := (List.range 17).findSome? fun (n : Nat) ↦
    (i.onGrid (top - n)).map fun d ↦ (d, top - n)
  match found with
  | some (d, k) => dropZeros 17 d k
  | none => (0, 0)

def zeros (n : Nat) : List Char := List.replicate n '0'

/-- Positional from `1e-5` up to `1e16`, always with a point; else with an exponent. -/
def written (digits : Nat) (k : Int) : List Char :=
  let ds := Nat.toDigits 10 digits
  let point := k + ds.length
  if 0 ≤ k ∧ point ≤ 16 then ds ++ zeros k.toNat ++ ['.', '0']
  else if 0 < point ∧ point ≤ 16 then ds.take point.toNat ++ '.' :: ds.drop point.toNat
  else if -5 < point ∧ point ≤ 0 then '0' :: '.' :: zeros (-point).toNat ++ ds
  else
    let e := 'e' :: (toString (point - 1)).toList
    match ds with
    | [d] => d :: e
    | d :: ds => d :: '.' :: ds ++ e
    | [] => e

def sign (negative : Bool) : List Char := if negative then ['-'] else []

def display : Binary64 → String
  | finite n 0 _ => String.ofList (sign n ++ ['0', '.', '0'])
  | finite n m e =>
    let (digits, k) := shortest m e
    String.ofList (sign n ++ written digits k)
  | infinite n => String.ofList (sign n) ++ ".inf"
  | nan => ".nan"

end Multicloud.Binary64
