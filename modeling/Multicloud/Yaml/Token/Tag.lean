import Multicloud.Text.Numeral
import Multicloud.Yaml.Cursor

namespace Multicloud.Yaml

def isUriChar (c : Char) : Bool := isWord c || (";/?:@&=+$.%!~*'()".toList.contains c)

def continuations? (octet : Nat) : Option Nat :=
  if octet < 0x80 then some 0
  else if 0xC0 ≤ octet ∧ octet < 0xE0 then some 1
  else if 0xE0 ≤ octet ∧ octet < 0xF0 then some 2
  else if 0xF0 ≤ octet ∧ octet < 0xF8 then some 3
  else none

/-- The bytes of a URI; `due` escaped octets have to follow. Inside angle brackets it may hold
commas and square brackets. -/
def uriBytes (bracketed : Bool) :
    List Char → Position → Nat → List UInt8 → Except Fault (List UInt8 × Cursor)
  | '%' :: a :: b :: rest, p, due, acc =>
    match Text.readNat 16 [a, b] with
    | none => .error .token
    | some octet =>
      match due with
      | 0 =>
        match continuations? octet with
        | some due => uriBytes bracketed rest (p.next 3) due (octet.toUInt8 :: acc)
        | none => .error .token
      | due + 1 =>
        if 0x80 ≤ octet ∧ octet < 0xC0 then
          uriBytes bracketed rest (p.next 3) due (octet.toUInt8 :: acc)
        else .error .token
  | s, p, 0, acc =>
    match s with
    | [] => .ok (acc.reverse, ⟨[], p⟩)
    | c :: rest =>
      if c = '%' then .error .token
      else if isUriChar c || (bracketed && (c = ',' || c = '[' || c = ']')) then
        uriBytes bracketed rest (p.next 1) 0 (c.toNat.toUInt8 :: acc)
      else .ok (acc.reverse, ⟨c :: rest, p⟩)
  | _, _, _ + 1, _ => .error .token

def upToZero (bytes : List UInt8) : List UInt8 := bytes.takeWhile (· ≠ 0)

def uri (bracketed : Bool) (c : Cursor) : Except Fault (List UInt8 × Cursor) := do
  let (bytes, rest) ← uriBytes bracketed c.rest c.position 0 []
  if bytes.isEmpty then .error .token else .ok (upToZero bytes, rest)

def tagHandle (c : Cursor) : Except Fault (List Char × Cursor) :=
  match c.rest with
  | '!' :: _ =>
    let (name, c) := (c.skip 1).span isWord
    match c.rest with
    | '!' :: _ => .ok ('!' :: name ++ ['!'], c.skip 1)
    | _ => .ok ('!' :: name, c)
  | _ => .error .token

def ascii (s : List Char) : List UInt8 := s.map fun c ↦ c.toNat.toUInt8

def tag (flow : Bool) (c : Cursor) : Except Fault ((List Char × List UInt8) × Cursor) := do
  let (result, c) ← show Except Fault ((List Char × List UInt8) × Cursor) from
    match c.rest with
    | '!' :: '<' :: _ => do
      let (suffix, c) ← uri true (c.skip 2)
      match c.rest with
      | '>' :: _ => return (([], suffix), c.skip 1)
      | _ => throw .token
    | _ => do
      let (handle, c) ← tagHandle c
      if handle.length ≠ 1 ∧ handle.getLast? = some '!' then
        let (suffix, c) ← uri false c
        return ((handle, suffix), c)
      else
        let (more, c) ← uriBytes false c.rest c.position 0 []
        let suffix := ascii (handle.drop 1) ++ upToZero more
        return (if suffix.isEmpty then ([], ascii ['!']) else (['!'], suffix), c)
  match c.rest with
  | ',' :: _ => if flow then return (result, c) else throw .token
  | s => if isGap s then return (result, c) else throw .token

def shortNumber (c : Cursor) : Except Fault (Nat × Cursor) :=
  let (digits, c) := c.span Char.isDigit
  if 9 < digits.length then .error .directive
  else match Text.readNat 10 digits with
    | some n => .ok (n, c)
    | none => .error .directive

end Multicloud.Yaml
