import Multicloud.Yaml.Fault

namespace Multicloud.Yaml

structure Position where
  index : Nat
  line : Nat
  column : Nat
  deriving DecidableEq, Repr

def Position.next (p : Position) (n : Nat) : Position :=
  { p with index := p.index + n, column := p.column + n }

def Position.newline (p : Position) (n : Nat) : Position :=
  { index := p.index + n, line := p.line + 1, column := 0 }

structure Cursor where
  rest : List Char
  position : Position

def isSpace (c : Char) : Bool := c = ' ' || c = '\t'

/-- U+0085, U+2028 and U+2029 end a line too. -/
def isBreak (c : Char) : Bool :=
  c = '\n' || c = '\r' || c = '\u0085' || c = '\u2028' || c = '\u2029'

def isGap : List Char → Bool
  | [] => true
  | c :: _ => isSpace c || isBreak c

def breakText (c : Char) : Char := if c = '\u2028' ∨ c = '\u2029' then c else '\n'

def isWord (c : Char) : Bool := c.isAlphanum || c = '_' || c = '-'

def isDocumentMark : List Char → Bool
  | '-' :: '-' :: '-' :: rest => isGap rest
  | '.' :: '.' :: '.' :: rest => isGap rest
  | _ => false

namespace Cursor

def skip (n : Nat) (c : Cursor) : Cursor := { rest := c.rest.drop n, position := c.position.next n }

/-- Reads on while the condition holds; never over a line break. -/
def span (p : Char → Bool) (c : Cursor) : List Char × Cursor :=
  let taken := c.rest.takeWhile p
  (taken, { rest := c.rest.dropWhile p, position := c.position.next taken.length })

def skipWhile (p : Char → Bool) (c : Cursor) : Cursor := (c.span p).2

def skipLineEnd (c : Cursor) : Except Fault Cursor :=
  let c := c.skipWhile isSpace
  let c := match c.rest with
    | '#' :: _ => c.skipWhile fun x ↦ !isBreak x
    | _ => c
  match c.rest with
  | [] => .ok c
  | '\r' :: '\n' :: rest => .ok { rest, position := c.position.newline 2 }
  | x :: rest => if isBreak x then .ok { rest, position := c.position.newline 1 } else .error .token

end Cursor

def isPrintable (c : Char) : Bool :=
  let n := c.toNat
  n = 9 || n = 10 || n = 13 || (0x20 ≤ n && n ≤ 0x7E) || n = 0x85 || (0xA0 ≤ n && n ≤ 0xFFFD) ||
    0x10000 ≤ n

end Multicloud.Yaml
