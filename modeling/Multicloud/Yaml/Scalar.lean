import Multicloud.Binary64.Basic
import Multicloud.Text.Numeral
import Multicloud.Yaml.Fault

namespace Multicloud.Yaml

inductive Scalar where
  | null
  | bool (value : Bool)
  | int (value : Int)
  | float (value : Binary64)
  | text (value : List Char)
  deriving DecidableEq, Repr

namespace Scalar

def isNull (s : List Char) : Bool :=
  s = "null".toList || s = "Null".toList || s = "NULL".toList || s = "~".toList

def bool? (s : List Char) : Option Bool :=
  if s = "true".toList ∨ s = "True".toList ∨ s = "TRUE".toList then some true
  else if s = "false".toList ∨ s = "False".toList ∨ s = "FALSE".toList then some false
  else none

/-- Digits alone, with a zero in front of others, are no number. -/
def zeroLed : List Char → Bool
  | '0' :: c :: rest => c.isDigit && rest.all Char.isDigit
  | _ => false

def unsigned (s : List Char) : List Char :=
  match s with
  | '-' :: rest => rest
  | '+' :: rest => rest
  | _ => s

def magnitude? : List Char → Option Nat
  | '0' :: 'x' :: rest => Text.readNat 16 rest
  | '0' :: 'o' :: rest => Text.readNat 8 rest
  | '0' :: 'b' :: rest => Text.readNat 2 rest
  | s => if zeroLed s then none else Text.readNat 10 s

def integer? : List Char → Option Int
  | '-' :: rest => (magnitude? rest).map fun n ↦ -(n : Int)
  | '+' :: rest => (magnitude? rest).map Int.ofNat
  | s => (magnitude? s).map Int.ofNat

def isInfinity (s : List Char) : Bool :=
  s = ".inf".toList || s = ".Inf".toList || s = ".INF".toList

def float? (s : List Char) : Option Binary64 :=
  let finite (negative : Bool) (s : List Char) : Option Binary64 :=
    (Binary64.ofUnsigned? negative s).filter Binary64.isFinite
  if s = ".nan".toList ∨ s = ".NaN".toList ∨ s = ".NAN".toList then some .nan
  else match s with
    | '-' :: rest => if isInfinity rest then some (.infinite true) else finite true rest
    | '+' :: rest => if isInfinity rest then some (.infinite false) else finite false rest
    | _ => if isInfinity s then some (.infinite false) else finite false s

/-- Integers of 64 bits are values; wider ones are refused up to 128 bits, and floats beyond. -/
inductive Width where
  | word
  | wide
  | beyond

def width (n : Int) : Width :=
  let limit : Int := Text.wordLimit
  if -limit ≤ 2 * n ∧ n < limit then .word
  else if -(limit * limit) ≤ 2 * n ∧ n < limit * limit then .wide
  else .beyond

def ofFloat (s : List Char) : Scalar :=
  if zeroLed (unsigned s) then text s
  else match float? s with
    | some x => float x
    | none => text s

def ofPlain (s : List Char) : Except Fault Scalar :=
  if s.isEmpty || isNull s then .ok null
  else match bool? s with
    | some b => .ok (bool b)
    | none =>
      match integer? s with
      | none => .ok (ofFloat s)
      | some n =>
        match width n with
        | .word => .ok (int n)
        | .wide => .error .scalar
        | .beyond => .ok (ofFloat s)

def ofOption {α : Type} (f : α → Scalar) : Option α → Except Fault Scalar
  | some a => .ok (f a)
  | none => .error .scalar

/-- The meaning under a tag of the core schema, which has to fit; any other such tag makes a
text. -/
def ofTagged (tag : List UInt8) (s : List Char) : Except Fault Scalar :=
  let named (name : String) : Bool := tag = ("tag:yaml.org,2002:" ++ name).toUTF8.toList
  if named "bool" then ofOption bool (bool? s)
  else if named "int" then
    ofOption int ((integer? s).filter fun n ↦ match width n with | .word => true | _ => false)
  else if named "float" then ofOption float (float? s)
  else if named "null" then if isNull s then .ok null else .error .scalar
  else .ok (text s)

end Scalar

end Multicloud.Yaml
