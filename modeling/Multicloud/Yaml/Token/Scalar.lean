import Multicloud.Text.Numeral
import Multicloud.Yaml.Cursor

namespace Multicloud.Yaml

structure Gap where
  blanks : List Char := []
  first : Option (List Char) := none
  others : List Char := []

namespace Gap

def addBlank (g : Gap) (c : Char) : Gap :=
  if g.first.isSome then g else { g with blanks := g.blanks ++ [c] }

def addBreak (g : Gap) (c : Char) : Gap :=
  match g.first with
  | none => { blanks := [], first := some [breakText c], others := [] }
  | some _ => { g with others := g.others ++ [breakText c] }

/-- Blanks stay; of line breaks the first one folds into a space, or into those that follow. -/
def folded (g : Gap) : List Char :=
  match g.first with
  | none => g.blanks
  | some ['\n'] => if g.others.isEmpty then [' '] else g.others
  | some first => first ++ g.others

def escaped : Gap := { first := some [] }

end Gap

def singleQuoted : List Char → Position → Gap → List Char → Except Fault (List Char × Cursor)
  | [], _, _, _ => .error .token
  | '\'' :: '\'' :: rest, p, g, acc =>
    singleQuoted rest (p.next 2) {} ('\'' :: g.folded.reverse ++ acc)
  | '\'' :: rest, p, g, acc => .ok ((g.folded.reverse ++ acc).reverse, ⟨rest, p.next 1⟩)
  | '\r' :: '\n' :: rest, p, g, acc => singleQuoted rest (p.newline 2) (g.addBreak '\n') acc
  | c :: rest, p, g, acc =>
    if isBreak c then singleQuoted rest (p.newline 1) (g.addBreak c) acc
    else if isSpace c then singleQuoted rest (p.next 1) (g.addBlank c) acc
    else if p.column = 0 && isDocumentMark (c :: rest) then .error .token
    else singleQuoted rest (p.next 1) {} (c :: g.folded.reverse ++ acc)

def escape? : Char → Option Char
  | '0' => some '\x00'
  | 'a' => some '\x07'
  | 'b' => some '\x08'
  | 't' | '\t' => some '\t'
  | 'n' => some '\n'
  | 'v' => some '\x0b'
  | 'f' => some '\x0c'
  | 'r' => some '\r'
  | 'e' => some '\x1b'
  | ' ' => some ' '
  | '"' => some '"'
  | '/' => some '/'
  | '\\' => some '\\'
  | 'N' => some '\u0085'
  | '_' => some '\u00a0'
  | 'L' => some '\u2028'
  | 'P' => some '\u2029'
  | _ => none

def codePoint? (digits : List Char) : Option Char := do
  let n ← Text.readNat 16 digits
  if n.isValidChar then some (Char.ofNat n) else none

def doubleQuoted : List Char → Position → Gap → List Char → Except Fault (List Char × Cursor)
  | [], _, _, _ => .error .token
  | '"' :: rest, p, g, acc => .ok ((g.folded.reverse ++ acc).reverse, ⟨rest, p.next 1⟩)
  | '\r' :: '\n' :: rest, p, g, acc => doubleQuoted rest (p.newline 2) (g.addBreak '\n') acc
  | '\\' :: '\r' :: '\n' :: rest, p, g, acc =>
    doubleQuoted rest ((p.next 1).newline 2) .escaped (g.folded.reverse ++ acc)
  | '\\' :: 'x' :: a :: b :: rest, p, g, acc =>
    match codePoint? [a, b] with
    | some c => doubleQuoted rest (p.next 4) {} (c :: g.folded.reverse ++ acc)
    | none => .error .token
  | '\\' :: 'u' :: a :: b :: c :: d :: rest, p, g, acc =>
    match codePoint? [a, b, c, d] with
    | some x => doubleQuoted rest (p.next 6) {} (x :: g.folded.reverse ++ acc)
    | none => .error .token
  | '\\' :: 'U' :: a :: b :: c :: d :: e :: f :: h :: i :: rest, p, g, acc =>
    match codePoint? [a, b, c, d, e, f, h, i] with
    | some x => doubleQuoted rest (p.next 10) {} (x :: g.folded.reverse ++ acc)
    | none => .error .token
  | '\\' :: c :: rest, p, g, acc =>
    if isBreak c then
      doubleQuoted rest ((p.next 1).newline 1) .escaped (g.folded.reverse ++ acc)
    else match escape? c with
      | some x => doubleQuoted rest (p.next 2) {} (x :: g.folded.reverse ++ acc)
      | none => .error .token
  | c :: rest, p, g, acc =>
    if isBreak c then doubleQuoted rest (p.newline 1) (g.addBreak c) acc
    else if isSpace c then doubleQuoted rest (p.next 1) (g.addBlank c) acc
    else if p.column = 0 && isDocumentMark (c :: rest) then .error .token
    else doubleQuoted rest (p.next 1) {} (c :: g.folded.reverse ++ acc)

def isFlowIndicator (c : Char) : Bool :=
  c = ',' || c = '[' || c = ']' || c = '\x7b' || c = '\x7d'

/-- After a gap a plain scalar ends where the indentation falls back, at a document mark and before
a comment. -/
def endsAtGap (flow : Bool) (indent : Nat) (p : Position) (s : List Char) : Bool :=
  (!flow && p.column < indent) || (p.column = 0 && isDocumentMark s) || s.head? == some '#'

def endsPlain (flow : Bool) : List Char → Bool
  | [] => true
  | ':' :: rest => isGap rest
  | c :: _ => flow && isFlowIndicator c

def strayColon (flow : Bool) : List Char → Bool
  | ':' :: c :: _ => flow && (c = '?' || isFlowIndicator c)
  | _ => false

def plain (flow : Bool) (indent : Nat) :
    List Char → Position → Gap → List Char → Except Fault (List Char × Bool × Cursor)
  | [], p, g, acc => .ok (acc.reverse, g.first.isSome, ⟨[], p⟩)
  | '\r' :: '\n' :: rest, p, g, acc => plain flow indent rest (p.newline 2) (g.addBreak '\n') acc
  | c :: rest, p, g, acc =>
    if isBreak c then plain flow indent rest (p.newline 1) (g.addBreak c) acc
    else if isSpace c then
      if g.first.isSome && p.column < indent && c = '\t' then .error .token
      else plain flow indent rest (p.next 1) (g.addBlank c) acc
    else
      let afterGap := g.first.isSome || !g.blanks.isEmpty
      let ends := afterGap && endsAtGap flow indent p (c :: rest)
      if !ends && strayColon flow (c :: rest) then .error .token
      else if ends || endsPlain flow (c :: rest) then
        .ok (acc.reverse, g.first.isSome, ⟨c :: rest, p⟩)
      else plain flow indent rest (p.next 1) {} (c :: g.folded.reverse ++ acc)

inductive Chomp where
  | strip
  | clip
  | keep

/-- What has been read of a block scalar; lines are kept latest character first. -/
structure BlockText where
  /-- Found at the first line that is not empty, unless the header gave it. -/
  indent : Option Nat
  widest : Nat := 0
  pending : List Char := []
  empty : List Char := []
  /-- The last line began with a blank: such lines are not folded. -/
  indented : Bool := false
  text : List Char := []

namespace BlockText

def settle (parent : Int) (b : BlockText) (column : Nat) : BlockText :=
  match b.indent with
  | some _ => b
  | none =>
    { b with indent := some (max (max (max b.widest column) (parent + 1).toNat) 1) }

def beginLine (literal : Bool) (b : BlockText) (c : Char) : BlockText :=
  let folds := !literal && b.pending == ['\n'] && !b.indented && !isSpace c
  let between := if folds then (if b.empty.isEmpty then [' '] else b.empty)
    else b.pending ++ b.empty
  { b with pending := [], empty := [], indented := isSpace c, text := between.reverse ++ b.text }

def finish (chomp : Chomp) (b : BlockText) : List Char :=
  let kept := match chomp with
    | .strip => []
    | .clip => b.pending
    | .keep => b.pending ++ b.empty
  b.text.reverse ++ kept

end BlockText

/-- The lines of a block scalar, after its header. `inLine` says whether a line is being read, or
the blanks before one. -/
def blockLines (literal : Bool) (chomp : Chomp) (parent : Int) :
    List Char → Position → Bool → BlockText → Except Fault (List Char × Cursor)
  | [], p, _, b => .ok (b.finish chomp, ⟨[], p⟩)
  | '\r' :: '\n' :: rest, p, inLine, b =>
    let b := if inLine then { b with pending := ['\n'] }
      else { b with empty := b.empty ++ ['\n'], widest := max b.widest p.column }
    blockLines literal chomp parent rest (p.newline 2) false b
  | c :: rest, p, inLine, b =>
    if isBreak c then
      let b := if inLine then { b with pending := [breakText c] }
        else { b with empty := b.empty ++ [breakText c], widest := max b.widest p.column }
      blockLines literal chomp parent rest (p.newline 1) false b
    else if inLine then
      blockLines literal chomp parent rest (p.next 1) true { b with text := c :: b.text }
    else
      let inside := match b.indent with
        | none => true
        | some n => p.column < n
      if inside && c = ' ' then blockLines literal chomp parent rest (p.next 1) false b
      else if inside && c = '\t' then .error .token
      else
        let b := b.settle parent p.column
        if b.indent = some p.column then
          let b := b.beginLine literal c
          blockLines literal chomp parent rest (p.next 1) true { b with text := c :: b.text }
        else .ok (b.finish chomp, ⟨c :: rest, p⟩)

def chomp? : Char → Option Chomp
  | '+' => some .keep
  | '-' => some .strip
  | _ => none

def blockHeader (c : Cursor) : Except Fault (Chomp × Option Nat × Cursor) :=
  let indent (d : Char) : Except Fault Nat :=
    if d = '0' then .error .token else .ok (d.toNat - '0'.toNat)
  match c.rest with
  | [] => .ok (.clip, none, c)
  | x :: rest =>
    match chomp? x with
    | some chomp =>
      match rest with
      | d :: _ =>
        if d.isDigit then (indent d).map fun n ↦ (chomp, some n, c.skip 2)
        else .ok (chomp, none, c.skip 1)
      | [] => .ok (chomp, none, c.skip 1)
    | none =>
      if x.isDigit then
        (indent x).map fun n ↦
          match rest.head?.bind chomp? with
          | some chomp => (chomp, some n, c.skip 2)
          | none => (.clip, some n, c.skip 1)
      else .ok (.clip, none, c)

/-- A block scalar, after its indicator, below a node whose indentation is `parent`. -/
def blockScalar (literal : Bool) (parent : Int) (c : Cursor) :
    Except Fault (List Char × Cursor) := do
  let (chomp, given, c) ← blockHeader c
  let c ← c.skipLineEnd
  let indent := given.map fun n ↦ if 0 ≤ parent then parent.toNat + n else n
  blockLines literal chomp parent c.rest c.position false { indent }

end Multicloud.Yaml
