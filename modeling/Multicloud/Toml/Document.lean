import Multicloud.Toml.Basic
import Multicloud.Toml.Quoted

namespace Multicloud.Toml

def skipSpace (s : List Char) : List Char := s.dropWhile isSpace

def isKeyChar (c : Char) : Bool := c.isAlphanum || c = '_' || c = '-'

def simpleKey (s : List Char) : Option (String × List Char) :=
  match s.takeWhile isKeyChar with
  | [] => (quoted? s).map fun (t, rest) ↦ (String.ofList t, rest)
  | cs => some (String.ofList cs, s.dropWhile isKeyChar)

def key : Nat → List Char → Option (List String × String × List Char)
  | 0, _ => none
  | fuel + 1, s => do
    let (first, rest) ← simpleKey (skipSpace s)
    match skipSpace rest with
    | '.' :: rest =>
      let (path, last, rest) ← key fuel rest
      return (first :: path, last, rest)
    | rest => return ([], first, rest)

def keyOf (s : List Char) : Option (List String × String × List Char) := key (s.length + 1) s

def skipComment : List Char → Option (List Char)
  | '#' :: rest =>
    let body := rest.takeWhile (· ≠ '\n')
    let after := rest.drop body.length
    let text := if body.getLast? = some '\r' && !after.isEmpty then body.dropLast else body
    if text.all isPrintable then some ((body.drop text.length) ++ after) else none
  | s => some s

def skipAll : Nat → List Char → Option (List Char)
  | 0, s => some s
  | fuel + 1, s => do
    let s ← skipComment (skipSpace s)
    match newline? s with
    | some rest => skipAll fuel rest
    | none => return s

def skip (s : List Char) : Option (List Char) := skipAll (s.length + 1) s

def isPlainChar (c : Char) : Bool :=
  c.isAlphanum || c = '+' || c = '-' || c = '_' || c = '.' || c = ':'

/-- A number, a date or a time. What it says is left to whoever wants one. -/
def plain (s : List Char) : Option (Value × List Char) :=
  let w := s.takeWhile isPlainChar
  let body := w.dropWhile fun c ↦ c = '+' || c = '-'
  if (body.head?.map Char.isDigit).getD false || body = "inf".toList || body = "nan".toList then
    some (.plain w, s.drop w.length)
  else none

mutual

def value : Nat → List Char → Option (Value × List Char)
  | 0, _ => none
  | fuel + 1, s =>
    match s with
    | 't' :: 'r' :: 'u' :: 'e' :: rest => some (.bool true, rest)
    | 'f' :: 'a' :: 'l' :: 's' :: 'e' :: rest => some (.bool false, rest)
    | '[' :: rest => (items fuel rest).map fun (vs, rest) ↦ (.list vs, rest)
    | '\x7b' :: rest =>
      match skipSpace rest with
      | '\x7d' :: rest => some (.table .inline [], rest)
      | rest => (pairs fuel [] rest).map fun (es, rest) ↦ (.table .inline es, rest)
    | s =>
      match s.head? with
      | some '"' | some '\'' => (string? s).map fun (t, rest) ↦ (.text (String.ofList t), rest)
      | _ => plain s

def items : Nat → List Char → Option (List Value × List Char)
  | 0, _ => none
  | fuel + 1, s => do
    match ← skip s with
    | ']' :: rest => return ([], rest)
    | s =>
      let (v, rest) ← value fuel s
      match ← skip rest with
      | ',' :: rest =>
        let (vs, rest) ← items fuel rest
        return (v :: vs, rest)
      | ']' :: rest => return ([v], rest)
      | _ => none

def pairs : Nat → Entries → List Char → Option (Entries × List Char)
  | 0, _, _ => none
  | fuel + 1, es, s => do
    let (path, last, rest) ← keyOf s
    let '=' :: rest := rest | none
    let (v, rest) ← value fuel (skipSpace rest)
    let es ← Entries.add last v path es
    match skipSpace rest with
    | ',' :: rest => pairs fuel es rest
    | '\x7d' :: rest => return (es, rest)
    | _ => none

end

structure State where
  root : Entries := []
  header : List String := []

def header (st : State) (s : List Char) : Option (State × List Char) :=
  match s with
  | '[' :: '[' :: rest => do
    let (path, last, rest) ← keyOf rest
    let ']' :: ']' :: rest := rest | none
    return (⟨← Entries.atHeader (Entries.openNext last) path st.root, path ++ [last]⟩, rest)
  | '[' :: rest => do
    let (path, last, rest) ← keyOf rest
    let ']' :: rest := rest | none
    return (⟨← Entries.atHeader (Entries.openTable last) path st.root, path ++ [last]⟩, rest)
  | _ => none

def pair (st : State) (s : List Char) : Option (State × List Char) := do
  let (path, last, rest) ← keyOf s
  let '=' :: rest := rest | none
  let (v, rest) ← value (rest.length + 1) (skipSpace rest)
  let root ← Entries.atHeader (Entries.add last v path) st.header st.root
  return ({ st with root }, rest)

def expression (st : State) (s : List Char) : Option (State × List Char) :=
  match s with
  | '[' :: _ => header st s
  | _ => pair st s

def expressions : Nat → State → List Char → Option State
  | 0, _, _ => none
  | fuel + 1, st, s => do
    match ← skip s with
    | [] => return st
    | s =>
      let (st, rest) ← expression st s
      match ← skipComment (skipSpace rest) with
      | [] => return st
      | rest => expressions fuel st (← newline? rest)

def ofText? (s : List Char) : Option Entries :=
  let s := if s.head? = some '\ufeff' then s.drop 1 else s
  (expressions (s.length + 1) {} s).map State.root

end Multicloud.Toml
