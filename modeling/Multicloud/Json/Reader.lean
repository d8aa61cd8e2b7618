import Multicloud.Json.Basic

namespace Multicloud.Json

def isBlank (c : Char) : Bool := c = ' ' || c = '\n' || c = '\t' || c = '\r'

def skip (s : List Char) : List Char := s.dropWhile isBlank

def isHex (c : Char) : Bool := (Text.digit? 16 c).isSome

/-- The inside of a string, up to the closing quote. Escapes have to be well formed, but need not
stand for a character. -/
def inside : List Char → Option (List Char × List Char)
  | [] => none
  | '"' :: rest => some ([], rest)
  | '\\' :: 'u' :: a :: b :: c :: d :: rest =>
    if isHex a && isHex b && isHex c && isHex d then
      (inside rest).map fun (w, s) ↦ ('\\' :: 'u' :: a :: b :: c :: d :: w, s)
    else none
  | '\\' :: c :: rest =>
    if (shortEscape? c).isSome then (inside rest).map fun (w, s) ↦ ('\\' :: c :: w, s) else none
  | c :: rest =>
    if c < ' ' || c = '\\' then none else (inside rest).map fun (w, s) ↦ (c :: w, s)

def isDigit (c : Char) : Bool := '0' ≤ c && c ≤ '9'

def digits (s : List Char) : List Char × List Char := s.span isDigit

def someDigits (s : List Char) : Option (List Char × List Char) :=
  match digits s with
  | ([], _) => none
  | (ds, rest) => some (ds, rest)

def whole : List Char → Option (List Char × List Char)
  | '0' :: rest => if (rest.head?.map isDigit).getD false then none else some (['0'], rest)
  | s => someDigits s

def fraction : List Char → Option (List Char × List Char)
  | '.' :: rest => (someDigits rest).map fun (ds, s) ↦ ('.' :: ds, s)
  | s => some ([], s)

def exponent : List Char → Option (List Char × List Char)
  | e :: rest =>
    if e = 'e' || e = 'E' then
      match rest with
      | sign :: rest' =>
        if sign = '+' || sign = '-' then
          (someDigits rest').map fun (ds, s) ↦ (e :: sign :: ds, s)
        else (someDigits rest).map fun (ds, s) ↦ (e :: ds, s)
      | [] => none
    else some ([], e :: rest)
  | [] => some ([], [])

def unsigned (s : List Char) : Option (List Char × List Char) := do
  let (n, s) ← whole s
  let (f, s) ← fraction s
  let (e, s) ← exponent s
  return (n ++ f ++ e, s)

def number : List Char → Option (List Char × List Char)
  | '-' :: rest => (unsigned rest).map fun (w, s) ↦ ('-' :: w, s)
  | s => unsigned s

def name (s : List Char) : Option (List Char × List Char) :=
  match skip s with
  | '"' :: rest => do
    let (k, s) ← inside rest
    match skip s with
    | ':' :: s => return (k, s)
    | _ => none
  | _ => none

mutual

/-- A value, in at most so many steps. -/
def value : Nat → List Char → Option (Value × List Char)
  | 0, _ => none
  | fuel + 1, s =>
    match skip s with
    | 'n' :: 'u' :: 'l' :: 'l' :: rest => some (.null, rest)
    | 't' :: 'r' :: 'u' :: 'e' :: rest => some (.bool true, rest)
    | 'f' :: 'a' :: 'l' :: 's' :: 'e' :: rest => some (.bool false, rest)
    | '"' :: rest => (inside rest).map fun (w, s) ↦ (.text w, s)
    | '[' :: rest =>
      match skip rest with
      | ']' :: s => some (.list [], s)
      | s => do
        let (v, s) ← value fuel s
        let (vs, s) ← items fuel s
        return (.list (v :: vs), s)
    | '\x7b' :: rest =>
      match skip rest with
      | '\x7d' :: s => some (.object [], s)
      | s => do
        let (k, s) ← name s
        let (v, s) ← value fuel s
        let (es, s) ← entries fuel s
        return (.object ((k, v) :: es), s)
    | s => (number s).map fun (w, s) ↦ (.number w, s)

def items : Nat → List Char → Option (List Value × List Char)
  | 0, _ => none
  | fuel + 1, s =>
    match skip s with
    | ']' :: s => some ([], s)
    | ',' :: s => do
      let (v, s) ← value fuel s
      let (vs, s) ← items fuel s
      return (v :: vs, s)
    | _ => none

def entries : Nat → List Char → Option (List (List Char × Value) × List Char)
  | 0, _ => none
  | fuel + 1, s =>
    match skip s with
    | '\x7d' :: s => some ([], s)
    | ',' :: s => do
      let (k, s) ← name s
      let (v, s) ← value fuel s
      let (es, s) ← entries fuel s
      return ((k, v) :: es, s)
    | _ => none

end

def Value.ofText? (s : List Char) : Option Value :=
  match value (s.length + 1) s with
  | some (v, rest) => if (skip rest).isEmpty then some v else none
  | none => none

end Multicloud.Json
