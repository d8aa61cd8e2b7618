import Multicloud.Yaml.Token.Basic
import Multicloud.Yaml.Token.Scalar
import Multicloud.Yaml.Token.Tag

namespace Multicloud.Yaml

/-- A place where a mapping key may have begun: only the colon after it tells. -/
structure PossibleKey where
  required : Bool
  token : Nat
  position : Position

structure Lexer where
  cursor : Cursor
  tokens : List Token := []
  count : Nat := 0
  /-- Column of the innermost block collection; `-1` outside of all. -/
  indent : Int := -1
  outer : List Int := []
  /-- For the block context and for each open flow collection, innermost first. -/
  keys : List (Option PossibleKey) := [none]
  keyAllowed : Bool := true

namespace Lexer

def inFlow (l : Lexer) : Bool := 1 < l.keys.length

def column (l : Lexer) : Int := l.cursor.position.column

def push (t : Token) (l : Lexer) : Lexer :=
  { l with tokens := t :: l.tokens, count := l.count + 1 }

def insert (number : Nat) (t : Token) (l : Lexer) : Lexer :=
  { l with tokens := l.tokens.insertIdx (l.count - number) t, count := l.count + 1 }

def advance (n : Nat) (l : Lexer) : Lexer := { l with cursor := l.cursor.skip n }

def allowKey (allowed : Bool) (l : Lexer) : Lexer := { l with keyAllowed := allowed }

/-- Over blanks, comments and line breaks. A tab is a blank where no key may begin. -/
def skipGap (flow : Bool) : List Char → Position → Bool → Bool → Cursor × Bool
  | [], p, allowed, _ => (⟨[], p⟩, allowed)
  | '\r' :: '\n' :: rest, p, allowed, _ => skipGap flow rest (p.newline 2) (allowed || !flow) false
  | c :: rest, p, allowed, comment =>
    if isBreak c then skipGap flow rest (p.newline 1) (allowed || !flow) false
    else if comment then skipGap flow rest (p.next 1) allowed true
    else if c = ' ' || (c = '\t' && (flow || !allowed)) || (c = '\uFEFF' && p.index = 0) then
      skipGap flow rest (p.next 1) allowed false
    else if c = '#' then skipGap flow rest (p.next 1) allowed true
    else (⟨c :: rest, p⟩, allowed)

def toNextToken (l : Lexer) : Lexer :=
  let r := skipGap l.inFlow l.cursor.rest l.cursor.position l.keyAllowed false
  { l with cursor := r.1, keyAllowed := r.2 }

def isStale (p : Position) (k : PossibleKey) : Bool :=
  k.position.line < p.line || k.position.index + 1024 < p.index

def dropStale (l : Lexer) : Except Fault Lexer :=
  let stale (k : Option PossibleKey) : Bool := k.any (isStale l.cursor.position)
  if l.keys.any fun k ↦ stale k && k.any PossibleKey.required then .error .token
  else .ok { l with keys := l.keys.map fun k ↦ if stale k then none else k }

def dropKey (l : Lexer) : Except Fault Lexer :=
  match l.keys with
  | some k :: keys => if k.required then .error .token else .ok { l with keys := none :: keys }
  | _ => .ok l

/-- A key may begin here. At the indentation of the block around it, it has to. -/
def markKey (l : Lexer) : Except Fault Lexer :=
  if l.keyAllowed then do
    let key : PossibleKey :=
      { required := !l.inFlow && l.indent = l.column, token := l.count
        position := l.cursor.position }
    let l ← l.dropKey
    return { l with keys := some key :: l.keys.drop 1 }
  else .ok l

def openBlock (column : Int) (number : Nat) (t : Token) (l : Lexer) : Lexer :=
  if !l.inFlow && l.indent < column then
    { l.insert number t with indent := column, outer := l.indent :: l.outer }
  else l

def closeBlocks (column : Int) (l : Lexer) : Lexer :=
  if l.inFlow then l
  else go l.indent l.outer l
where
  go (indent : Int) : List Int → Lexer → Lexer
    | [], l => { l with indent, outer := [] }
    | next :: outer, l =>
      if column < indent then go next outer (l.push .blockEnd)
      else { l with indent, outer := next :: outer }

def directive (l : Lexer) : Except Fault Lexer := do
  let l ← (l.closeBlocks (-1)).dropKey
  let (name, c) := (l.cursor.skip 1).span isWord
  if name.isEmpty || !isGap c.rest then throw .directive
  let c := c.skipWhile isSpace
  let (token, c) ← show Except Fault (Token × Cursor) from
    if name = "YAML".toList then do
      let (major, c) ← shortNumber c
      match c.rest with
      | '.' :: _ =>
        let (minor, c) ← shortNumber (c.skip 1)
        return (.version major minor, c)
      | _ => throw .directive
    else if name = "TAG".toList then do
      let (handle, c) ← tagHandle c
      if handle.length ≠ 1 ∧ handle.getLast? ≠ some '!' then throw .directive
      if !c.rest.head?.any isSpace then throw .directive
      let (start, c) ← uri true (c.skipWhile isSpace)
      if !isGap c.rest then throw .directive
      return (.tagHandle handle start, c)
    else throw .directive
  let c ← c.skipLineEnd
  return ({ l with cursor := c }.push token).allowKey false

def documentMark (t : Token) (l : Lexer) : Except Fault Lexer := do
  let l ← (l.closeBlocks (-1)).dropKey
  return ((l.advance 3).push t).allowKey false

def openFlow (t : Token) (l : Lexer) : Except Fault Lexer := do
  let l ← l.markKey
  return { (l.advance 1).push t with keys := none :: l.keys, keyAllowed := true }

def closeFlow (t : Token) (l : Lexer) : Except Fault Lexer := do
  let l ← l.dropKey
  let keys := if l.inFlow then l.keys.drop 1 else l.keys
  return { (l.advance 1).push t with keys, keyAllowed := false }

def comma (l : Lexer) : Except Fault Lexer := do
  let l ← l.dropKey
  return ((l.advance 1).push .comma).allowKey true

/-- In the block context an indicator may open a block only where a key may begin. -/
def openBlockHere (t : Token) (l : Lexer) : Except Fault Lexer :=
  if l.inFlow then .ok l
  else if l.keyAllowed then .ok (l.openBlock l.column l.count t)
  else .error .token

def entry (l : Lexer) : Except Fault Lexer := do
  let l ← (← l.openBlockHere .blockSequence).dropKey
  return ((l.advance 1).push .entry).allowKey true

def key (l : Lexer) : Except Fault Lexer := do
  let l ← (← l.openBlockHere .blockMapping).dropKey
  return ((l.advance 1).push .key).allowKey (!l.inFlow)

/-- At a colon: what began at the pending place was a key. -/
def value (l : Lexer) : Except Fault Lexer := do
  match l.keys with
  | some k :: keys =>
    let l := (l.insert k.token .key).openBlock k.position.column k.token .blockMapping
    return { (l.advance 1).push .value with keys := none :: keys, keyAllowed := false }
  | _ =>
    let l ← l.openBlockHere .blockMapping
    return ((l.advance 1).push .value).allowKey (!l.inFlow)

def reference (t : List Char → Token) (l : Lexer) : Except Fault Lexer := do
  let l ← l.markKey
  let (name, c) := (l.cursor.skip 1).span isWord
  let ends := isGap c.rest || c.rest.head?.any fun x ↦ "?:,]\x7d%@\x60".toList.contains x
  if name.isEmpty || !ends then throw .token
  return ({ l with cursor := c }.push (t name)).allowKey false

def tagged (l : Lexer) : Except Fault Lexer := do
  let l ← l.markKey
  let ((handle, suffix), c) ← tag l.inFlow l.cursor
  return ({ l with cursor := c }.push (.tag handle suffix)).allowKey false

def block (literal : Bool) (l : Lexer) : Except Fault Lexer := do
  let l ← l.dropKey
  let (text, c) ← blockScalar literal l.indent (l.cursor.skip 1)
  return ({ l with cursor := c }.push (.scalar .block text)).allowKey true

def quoted (single : Bool) (l : Lexer) : Except Fault Lexer := do
  let l ← l.markKey
  let c := l.cursor.skip 1
  let (text, c) ← if single then singleQuoted c.rest c.position {} []
    else doubleQuoted c.rest c.position {} []
  return ({ l with cursor := c }.push (.scalar .quoted text)).allowKey false

def plainScalar (l : Lexer) : Except Fault Lexer := do
  let l ← l.markKey
  let c := l.cursor
  let (text, multiline, c) ← plain l.inFlow (l.indent + 1).toNat c.rest c.position {} []
  return ({ l with cursor := c }.push (.scalar .plain text)).allowKey multiline

def isIndicator (c : Char) : Bool := "-?:,[]\x7b\x7d#&*!|>'\"%@\x60".toList.contains c

def startsPlain (flow : Bool) : List Char → Bool
  | [] => false
  | c :: rest =>
    !(isGap [c] || isIndicator c) || (c = '-' && !rest.head?.any isSpace) ||
      (!flow && (c = '?' || c = ':') && !isGap rest)

def token (l : Lexer) : Except Fault Lexer :=
  let s := l.cursor.rest
  let flow := l.inFlow
  let first := l.cursor.position.column = 0
  match s with
  | [] => .ok l
  | c :: rest =>
    if first ∧ c = '%' then l.directive
    else if first ∧ isDocumentMark s then
      l.documentMark (if c = '-' then .documentStart else .documentEnd)
    else if c = '[' then l.openFlow .flowSequence
    else if c = '\x7b' then l.openFlow .flowMapping
    else if c = ']' then l.closeFlow .flowSequenceEnd
    else if c = '\x7d' then l.closeFlow .flowMappingEnd
    else if c = ',' then l.comma
    else if c = '-' ∧ isGap rest then l.entry
    else if c = '?' ∧ (flow || isGap rest) then l.key
    else if c = ':' ∧ (flow || isGap rest) then l.value
    else if c = '*' then l.reference .aliasOf
    else if c = '&' then l.reference .anchor
    else if c = '!' then l.tagged
    else if c = '|' ∧ !flow then l.block true
    else if c = '>' ∧ !flow then l.block false
    else if c = '\'' then l.quoted true
    else if c = '"' then l.quoted false
    else if startsPlain flow s then l.plainScalar
    else .error .token

def finish (l : Lexer) : Except Fault (List Token) := do
  let l ← (l.closeBlocks (-1)).dropKey
  return l.tokens.reverse

/-- Every token takes a character at least, so as many steps do as there are characters. -/
def run : Nat → Lexer → Except Fault (List Token)
  | 0, _ => .error .token
  | n + 1, l => do
    let l ← l.toNextToken.dropStale
    let l := l.closeBlocks l.column
    if l.cursor.rest.isEmpty then l.finish
    else run n (← l.token)

end Lexer

def tokens? (text : List Char) : Except Fault (List Token) :=
  if text.all isPrintable then
    Lexer.run (text.length + 1) { cursor := ⟨text, { index := 0, line := 0, column := 0 }⟩ }
  else .error .character

end Multicloud.Yaml
