import Multicloud.Text.Blank
import Multicloud.Time.Instant

namespace Multicloud

namespace Text

def digitsOfWidth (width n : Nat) : List Char :=
  let ds := (Nat.repr n).toList
  List.replicate (width - ds.length) '0' ++ ds

end Text

namespace Instant

def yearText (y : Int) : List Char :=
  if 0 ≤ y ∧ y ≤ 9999 then Text.digitsOfWidth 4 y.toNat
  else (if y < 0 then '-' else '+') :: Text.digitsOfWidth 4 y.natAbs

/-- As many groups of three digits as are needed. -/
def fractionText (nanos : Nat) : List Char :=
  if nanos = 0 then []
  else if nanos % 1000000 = 0 then '.' :: Text.digitsOfWidth 3 (nanos / 1000000)
  else if nanos % 1000 = 0 then '.' :: Text.digitsOfWidth 6 (nanos / 1000)
  else '.' :: Text.digitsOfWidth 9 nanos

def two (n : Nat) : List Char := Text.digitsOfWidth 2 n

def clockText (t : Instant) : List Char :=
  let date := Date.ofNumber (t.seconds / 86400)
  let s := (t.seconds % 86400).toNat
  yearText date.year ++ '-' :: two date.month ++ '-' :: two date.day ++
    'T' :: two (s / 3600) ++ ':' :: two (s / 60 % 60) ++
    ':' :: two (s % 60 + t.nanos / second) ++ fractionText (t.nanos % second)

def text (t : Instant) : String := String.ofList (t.clockText ++ ['Z'])

def offsetText (t : Instant) : String := String.ofList (t.clockText ++ "+00:00".toList)

def isDigit (c : Char) : Bool := '0' ≤ c && c ≤ '9'

def numeral (width : Nat) (s : List Char) : Option (Nat × List Char) :=
  let ds := (s.take width).takeWhile isDigit
  (Text.readNat 10 ds).map fun n ↦ (n, s.drop ds.length)

def literal (c : Char) (s : List Char) : Option (List Char) :=
  match s with
  | d :: rest => if d = c then some rest else none
  | [] => none

def year (s : List Char) : Option (Int × List Char) :=
  match Text.trimStart s with
  | '-' :: rest => (numeral rest.length rest).map fun (n, s) ↦ (-n, s)
  | '+' :: rest => (numeral rest.length rest).map fun (n, s) ↦ (n, s)
  | s => (numeral 4 s).map fun (n, s) ↦ (n, s)

def part (s : List Char) : Option (Nat × List Char) := numeral 2 (Text.trimStart s)

def partAfter (c : Char) (s : List Char) : Option (Nat × List Char) := do
  part (← literal c (Text.trimStart s))

/-- Digits after the ninth do not count. -/
def fraction : List Char → Option (Nat × List Char)
  | '.' :: rest => do
    let (n, s) ← numeral 9 rest
    return (n * Nat.pow 10 (9 - (rest.length - s.length)), s.dropWhile isDigit)
  | s => some (0, s)

def isColonOrBlank (c : Char) : Bool := c = ':' || Text.isBlank c

def offsetMinutes : List Char → Option (Nat × List Char)
  | a :: b :: rest => do
    let hours ← Text.readNat 10 [a, b]
    match rest.dropWhile isColonOrBlank with
    | c :: d :: rest =>
      let minutes ← Text.readNat 10 [c, d]
      if minutes < 60 ∧ hours < 24 then some (hours * 60 + minutes, rest) else none
    | _ => none
  | _ => none

def zone : List Char → Option (Int × List Char)
  | 'Z' :: rest => some (0, rest)
  | 'z' :: rest => some (0, rest)
  | '+' :: rest => (offsetMinutes rest).map fun (n, s) ↦ (n, s)
  | '-' :: rest => (offsetMinutes rest).map fun (n, s) ↦ (-n, s)
  | '\u2212' :: rest => (offsetMinutes rest).map fun (n, s) ↦ (-n, s)
  | u :: t :: c :: rest =>
    if [u, t, c].map Char.toUpper = ['U', 'T', 'C'] then some (0, rest) else none
  | _ => none

def isYear (y : Int) : Bool := -262143 ≤ y && y ≤ 262142

/-- Blanks may stand around the parts of a date or time, numbers may be shorter, and a zone may be
an offset or a name. -/
def ofText? (text : String) : Option Instant := do
  let (y, s) ← year text.toList
  let (m, s) ← partAfter '-' s
  let (d, s) ← partAfter '-' s
  let t :: s := s | none
  if t ≠ 'T' ∧ t ≠ 't' ∧ t ≠ ' ' then none
  let (hour, s) ← part s
  let (minute, s) ← partAfter ':' s
  let (sec, s) ← partAfter ':' s
  let (nanos, s) ← fraction s
  let (ahead, s) ← zone (Text.trimStart s)
  if !(Text.trimStart s).isEmpty then none
  let date : Date := ⟨y, m, d⟩
  if !(isYear y && date.isValid && hour < 24 && minute < 60 && sec ≤ 60) then none
  let leap := sec / 60
  of? (date.number * 86400 + hour * 3600 + minute * 60 + (sec - leap) - ahead * 60)
    (nanos + leap * second)

end Instant

end Multicloud
