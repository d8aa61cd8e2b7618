namespace Multicloud.Text

def digit? (base : Nat) (c : Char) : Option Nat :=
  let value :=
    if '0' ≤ c ∧ c ≤ '9' then c.toNat - '0'.toNat
    else if 'a' ≤ c ∧ c ≤ 'z' then c.toNat - 'a'.toNat + 10
    else if 'A' ≤ c ∧ c ≤ 'Z' then c.toNat - 'A'.toNat + 10
    else base
  if value < base then some value else none

def digits? (base : Nat) (s : List Char) : Option (List Nat) := s.mapM (digit? base)

def ofDigits (base : Nat) (ds : List Nat) : Nat := ds.foldl (fun n d ↦ n * base + d) 0

def readNat (base : Nat) (s : List Char) : Option Nat :=
  if s.isEmpty then none else (digits? base s).map (ofDigits base)

def wordLimit : Nat := 18446744073709551616

/-- A decimal numeral below `2 ^ 64`; one plus sign may stand in front. -/
def readWord (s : List Char) : Option Nat :=
  let body := match s with
    | '+' :: rest => rest
    | _ => s
  (readNat 10 body).filter (· < wordLimit)

def hexDigit (n : Nat) : Char := (Nat.digitChar (n % 16))

/-- The lower-case hexadecimal numeral of exactly `width` digits, leading ones dropped. -/
def hexOfWidth : Nat → Nat → List Char
  | 0, _ => []
  | width + 1, n => hexOfWidth width (n / 16) ++ [hexDigit n]

def hexOfBytes (bytes : List UInt8) : List Char := bytes.flatMap fun b ↦ hexOfWidth 2 b.toNat

def padStart (width : Nat) (s : String) : String :=
  String.ofList (List.replicate (width - s.length) ' ') ++ s

def padEnd (width : Nat) (s : String) : String :=
  s ++ String.ofList (List.replicate (width - s.length) ' ')

end Multicloud.Text
