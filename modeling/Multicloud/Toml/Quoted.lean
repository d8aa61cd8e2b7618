import Multicloud.Text.Numeral

namespace Multicloud.Toml

def isSpace (c : Char) : Bool := c = ' ' || c = '\t'

/-- What may stand in comments and strings: no control character but the tab. -/
def isPrintable (c : Char) : Bool := c = '\t' || (' ' ≤ c && c ≠ '\x7f')

def newline? : List Char → Option (List Char)
  | '\n' :: rest => some rest
  | '\r' :: '\n' :: rest => some rest
  | _ => none

def scalar? (digits : List Char) : Option Char := do
  let n ← Text.readNat 16 digits
  if n.isValidChar then some (Char.ofNat n) else none

def escape? : List Char → Option (Char × List Char)
  | 'b' :: rest => some ('\x08', rest)
  | 't' :: rest => some ('\t', rest)
  | 'n' :: rest => some ('\n', rest)
  | 'f' :: rest => some ('\x0c', rest)
  | 'r' :: rest => some ('\r', rest)
  | '"' :: rest => some ('"', rest)
  | '\\' :: rest => some ('\\', rest)
  | 'u' :: a :: b :: c :: d :: rest => (scalar? [a, b, c, d]).map fun x ↦ (x, rest)
  | 'U' :: a :: b :: c :: d :: e :: f :: g :: h :: rest =>
    (scalar? [a, b, c, d, e, f, g, h]).map fun x ↦ (x, rest)
  | _ => none

def skipLines : Nat → List Char → List Char
  | 0, s => s
  | fuel + 1, s =>
    match newline? s with
    | some rest => skipLines fuel rest
    | none =>
      match s with
      | c :: rest => if isSpace c then skipLines fuel rest else c :: rest
      | [] => []

/-- Blanks and a line end, behind a backslash: the text goes on at the next visible character. -/
def continued? (s : List Char) : Option (List Char) :=
  (newline? (s.dropWhile isSpace)).map fun rest ↦ skipLines rest.length rest

def basic : Nat → List Char → Option (List Char × List Char)
  | 0, _ => none
  | fuel + 1, s =>
    match s with
    | [] => none
    | '"' :: rest => some ([], rest)
    | '\\' :: rest => do
      let (c, rest) ← escape? rest
      let (t, rest) ← basic fuel rest
      return (c :: t, rest)
    | c :: rest => do
      if !isPrintable c then none
      let (t, rest) ← basic fuel rest
      return (c :: t, rest)

def literal : List Char → Option (List Char × List Char)
  | [] => none
  | '\'' :: rest => some ([], rest)
  | c :: rest => if isPrintable c then (literal rest).map fun (t, s) ↦ (c :: t, s) else none

/-- The quotes that end a text of several lines: up to two more belong to the text. -/
def closing? (quote : Char) (s : List Char) : Option (List Char × List Char) :=
  let run := (s.take 5).takeWhile (· = quote)
  if run.length < 3 then none else some (run.drop 3, s.drop run.length)

def lines (quote : Char) : Nat → List Char → Option (List Char × List Char)
  | 0, _ => none
  | fuel + 1, s =>
    match closing? quote s with
    | some r => some r
    | none =>
      match newline? s, s with
      | some rest, _ => do
        let (t, rest) ← lines quote fuel rest
        return ('\n' :: t, rest)
      | none, [] => none
      | none, c :: rest =>
        if c = '\\' && quote = '"' then
          match continued? rest with
          | some rest => lines quote fuel rest
          | none => do
            let (c, rest) ← escape? rest
            let (t, rest) ← lines quote fuel rest
            return (c :: t, rest)
        else if isPrintable c then do
          let (t, rest) ← lines quote fuel rest
          return (c :: t, rest)
        else none

def block (quote : Char) (s : List Char) : Option (List Char × List Char) :=
  let s := (newline? s).getD s
  lines quote (s.length + 1) s

def quoted? : List Char → Option (List Char × List Char)
  | '"' :: rest => basic (rest.length + 1) rest
  | '\'' :: rest => literal rest
  | _ => none

def string? : List Char → Option (List Char × List Char)
  | '"' :: '"' :: '"' :: rest => block '"' rest
  | '\'' :: '\'' :: '\'' :: rest => block '\'' rest
  | s => quoted? s

end Multicloud.Toml
