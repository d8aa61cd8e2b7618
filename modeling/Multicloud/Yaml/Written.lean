import Multicloud.Yaml.Cursor
import Multicloud.Yaml.Scalar

namespace Multicloud.Yaml

inductive Written where
  | text (value : String)
  | list (items : List Written)
  | mapping (entries : List (String × Written))

namespace Written

def isPlainly (c : Char) : Bool :=
  let n := c.toNat
  n = 10 || (0x20 ≤ n && n ≤ 0x7E) || (0xA0 ≤ n && n ≤ 0xD7FF) ||
    (0xE000 ≤ n && n ≤ 0xFFFD && n ≠ 0xFEFF) || 0x10000 ≤ n

/-- Whether the text would be read as something else than a text. -/
def isMistakable (s : List Char) : Bool :=
  Scalar.zeroLed (Scalar.unsigned s) ||
    match Scalar.ofPlain s with
    | .ok (.text _) => false
    | _ => true

def hasPair (p q : Char → Bool) : List Char → Bool
  | a :: b :: rest => (p a && q b) || hasPair p q (b :: rest)
  | _ => false

def isBlankChar (c : Char) : Bool := c = ' '

/-- A blank before a line break is kept by double quotes alone. -/
def needsEscapes (s : List Char) : Bool :=
  hasPair isBlankChar isBreak s || s.any fun c ↦ !isPlainly c

def singleAllowed (s : List Char) : Bool := !needsEscapes s && !hasPair isBreak isBlankChar s

def literalAllowed (s : List Char) : Bool := !needsEscapes s && s.getLast? ≠ some ' '

def isLeadingIndicator (c : Char) : Bool := "#,[]\x7b\x7d&*!|>'\"%@\x60".toList.contains c

def hasInnerIndicator : List Char → Bool
  | a :: b :: rest =>
    (b = ':' && isGap rest) || (b = '#' && isGap [a]) || hasInnerIndicator (b :: rest)
  | _ => false

def hasIndicator (s : List Char) : Bool :=
  ['-', '-', '-'].isPrefixOf s || ['.', '.', '.'].isPrefixOf s || hasInnerIndicator s ||
    match s with
    | [] => false
    | c :: rest => isLeadingIndicator c || ((c = '?' || c = ':' || c = '-') && isGap rest)

def plainAllowed (s : List Char) : Bool :=
  !needsEscapes s && !s.any isBreak && s.head? ≠ some ' ' && s.getLast? ≠ some ' ' &&
    !hasIndicator s

def spaces (n : Nat) : List Char := List.replicate n ' '

def indented (indent : Nat) : Bool → List Char → List Char
  | _, [] => []
  | lineStart, c :: rest =>
    if isBreak c then c :: indented indent true rest
    else (if lineStart then spaces indent else []) ++ c :: indented indent false rest

def doubled (s : List Char) : List Char := s.flatMap fun c ↦ if c = '\'' then ['\'', '\''] else [c]

def single (indent : Nat) (s : List Char) : List Char :=
  let close := if (s.getLast?.map isBreak).getD false then spaces indent else []
  '\'' :: indented indent false (doubled s) ++ close ++ ['\'']

def shortEscape? (n : Nat) : Option Char :=
  [(0, '0'), (7, 'a'), (8, 'b'), (9, 't'), (10, 'n'), (11, 'v'), (12, 'f'), (13, 'r'), (0x1B, 'e'),
    (0x22, '"'), (0x5C, '\\'), (0x85, 'N'), (0xA0, '_'), (0x2028, 'L'), (0x2029, 'P')].lookup n

def escaped (c : Char) : List Char :=
  let n := c.toNat
  let hex (width : Nat) : List Char := (Text.hexOfWidth width n).map Char.toUpper
  if isPlainly c && !isBreak c && c ≠ '"' && c ≠ '\\' then [c]
  else match shortEscape? n with
    | some e => ['\\', e]
    | none =>
      if n ≤ 0xFF then '\\' :: 'x' :: hex 2
      else if n ≤ 0xFFFF then '\\' :: 'u' :: hex 4
      else '\\' :: 'U' :: hex 8

def double (s : List Char) : List Char := '"' :: s.flatMap escaped ++ ['"']

/-- The header tells the indentation where the text begins with blanks, and which of the breaks at
the end belong to it. -/
def literal (indent : Nat) (s : List Char) : List Char :=
  let hint := match s with
    | c :: _ => if c = ' ' || isBreak c then ['2'] else []
    | [] => []
  let chomp := match s.reverse with
    | [] => ['-']
    | [c] => if isBreak c then ['+'] else ['-']
    | c :: d :: _ => if !isBreak c then ['-'] else if isBreak d then ['+'] else []
  '|' :: hint ++ chomp ++ '\n' :: indented indent true s

def scalar (indent : Nat) (s : List Char) : List Char :=
  if s.contains '\n' then if literalAllowed s then literal indent s else double s
  else if !isMistakable s && plainAllowed s then s
  else if singleAllowed s then single indent s
  else double s

def endLine (s : List Char) : List Char :=
  if (s.getLast?.map isBreak).getD false then s else s ++ ['\n']

mutual

/-- A node after its key, up to the end of its last line. Lists stand as deep as the key above
them. -/
def afterKey (indent : Nat) : Written → List Char
  | text s => ' ' :: endLine (scalar (indent + 2) s.toList)
  | list [] => [' ', '[', ']', '\n']
  | list items => '\n' :: listItems indent true items
  | mapping entries => '\n' :: fields (indent + 2) true entries

def afterDash (indent : Nat) : Written → List Char
  | text s => ' ' :: endLine (scalar (indent + 2) s.toList)
  | list [] => [' ', '[', ']', '\n']
  | list items => ' ' :: listItems (indent + 2) false items
  | mapping entries => ' ' :: fields (indent + 2) false entries

def listItems (indent : Nat) (lineStart : Bool) : List Written → List Char
  | [] => []
  | item :: rest =>
    (if lineStart then spaces indent else []) ++ '-' :: afterDash indent item ++
      listItems indent true rest

def fields (indent : Nat) (lineStart : Bool) : List (String × Written) → List Char
  | [] => []
  | (k, v) :: rest =>
    (if lineStart then spaces indent else []) ++ scalar (indent + 2) k.toList ++
      ':' :: afterKey indent v ++ fields indent true rest

end

def render : Written → String
  | mapping entries => String.ofList (fields 0 true entries)
  | list items => String.ofList (listItems 0 true items)
  | text s => String.ofList (endLine (scalar 2 s.toList))

end Written

end Multicloud.Yaml
