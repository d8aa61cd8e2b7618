import Multicloud.Text.Numeral

namespace Multicloud.Json

/-- A value as it is written: the inside of a string still has its escapes, and a number its
digits. -/
inductive Value where
  | null
  | bool (value : Bool)
  | number (written : List Char)
  | text (written : List Char)
  | list (items : List Value)
  | object (entries : List (List Char × Value))

/-- Only what has to be escaped is: quotes, backslashes and control characters. -/
def escapeChar (c : Char) : List Char :=
  if c = '"' then ['\\', '"']
  else if c = '\\' then ['\\', '\\']
  else if c = '\x08' then ['\\', 'b']
  else if c = '\t' then ['\\', 't']
  else if c = '\n' then ['\\', 'n']
  else if c = '\x0c' then ['\\', 'f']
  else if c = '\r' then ['\\', 'r']
  else if c < ' ' then '\\' :: 'u' :: Text.hexOfWidth 4 c.toNat
  else [c]

def escape (s : List Char) : List Char := s.flatMap escapeChar

def hexValue? (s : List Char) : Option Nat := Text.readNat 16 s

/-- The character of two halves, if the first asks for a second and the second can be one. -/
def joinHalves? (high low : Nat) : Option Char :=
  if 0xD800 ≤ high ∧ high < 0xDC00 ∧ 0xDC00 ≤ low ∧ low < 0xE000 then
    some (Char.ofNat (0x10000 + (high - 0xD800) * 0x400 + (low - 0xDC00)))
  else none

def shortEscape? (c : Char) : Option Char :=
  if c = '"' ∨ c = '\\' ∨ c = '/' then some c
  else if c = 'b' then some '\x08'
  else if c = 'f' then some '\x0c'
  else if c = 'n' then some '\n'
  else if c = 'r' then some '\r'
  else if c = 't' then some '\t'
  else none

/-- The text that the inside of a string stands for. Half a character is none. -/
def unescape : List Char → Option (List Char)
  | [] => some []
  | '\\' :: 'u' :: a :: b :: c :: d :: '\\' :: 'u' :: e :: f :: g :: h :: rest => do
    let n ← hexValue? [a, b, c, d]
    if 0xD800 ≤ n ∧ n < 0xE000 then
      return (← joinHalves? n (← hexValue? [e, f, g, h])) :: (← unescape rest)
    else
      return Char.ofNat n :: (← unescape ('\\' :: 'u' :: e :: f :: g :: h :: rest))
  | '\\' :: 'u' :: a :: b :: c :: d :: rest => do
    let n ← hexValue? [a, b, c, d]
    if 0xD800 ≤ n ∧ n < 0xE000 then none else return Char.ofNat n :: (← unescape rest)
  | '\\' :: c :: rest => do return (← shortEscape? c) :: (← unescape rest)
  | c :: rest => do return c :: (← unescape rest)

namespace Value

def ofText (s : String) : Value := text (escape s.toList)

def ofNat (n : Nat) : Value := number (Nat.repr n).toList

def record (fields : List (String × Value)) : Value :=
  object (fields.map fun (k, v) ↦ (escape k.toList, v))

def ofTexts (items : List String) : Value := list (items.map ofText)

end Value

end Multicloud.Json
