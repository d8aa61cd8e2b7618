import Multicloud.Yaml.Fault
import Multicloud.Yaml.Token.Basic

namespace Multicloud.Yaml

structure Marks where
  anchor : Option Nat := none
  tag : Option (List UInt8) := none
  deriving DecidableEq, Repr

/-- A document before its scalars have a meaning and its aliases are followed. -/
inductive Node where
  | scalar (marks : Marks) (style : Style) (text : List Char)
  | sequence (marks : Marks) (items : List Node)
  | mapping (marks : Marks) (entries : List (Node × Node))
  | aliasOf (number : Nat)

namespace Node

def missing : Node := .scalar {} .plain []

structure Names where
  handles : List (List Char × List UInt8)
  anchors : List (List Char × Nat) := []

namespace Names

/-- The number of an anchor is the count of the names so far, so a name that comes again leaves its
new number to the next name. -/
def define (name : List Char) (ns : Names) : Nat × Names :=
  let number := ns.anchors.length
  (number, { ns with anchors := (name, number) :: ns.anchors.filter (·.1 ≠ name) })

def tag? (ns : Names) (handle : List Char) (suffix : List UInt8) : Except Fault (List UInt8) :=
  if handle.isEmpty then .ok suffix
  else match ns.handles.lookup handle with
    | some start => .ok (start ++ suffix)
    | none => .error .tagHandle

end Names

abbrev Read (α : Type) := α × Names × List Token

def marks (ns : Names) : List Token → Except Fault (Read Marks)
  | .anchor a :: .tag h s :: rest => do
    let (n, ns) := ns.define a
    return ({ anchor := some n, tag := some (← ns.tag? h s) }, ns, rest)
  | .anchor a :: rest =>
    let (n, ns) := ns.define a
    .ok ({ anchor := some n }, ns, rest)
  | .tag h s :: .anchor a :: rest => do
    let (n, ns) := ns.define a
    return ({ anchor := some n, tag := some (← ns.tag? h s) }, ns, rest)
  | .tag h s :: rest => do return ({ tag := some (← ns.tag? h s) }, ns, rest)
  | rest => .ok ({}, ns, rest)

/-- An exclamation mark alone is no tag of a scalar, unless the scalar is missing. -/
def unmarked (m : Marks) : Marks := if m.tag = some [33] then { m with tag := none } else m

def endsBlockItem : List Token → Bool
  | [] => false
  | .entry :: _ | .blockEnd :: _ => true
  | _ => false

def endsIndentless : List Token → Bool
  | [] => false
  | .entry :: _ | .key :: _ | .value :: _ | .blockEnd :: _ => true
  | _ => false

def endsBlockPart : List Token → Bool
  | [] => false
  | .key :: _ | .value :: _ | .blockEnd :: _ => true
  | _ => false

def endsFlowPart (close : Token) : List Token → Bool
  | [] => false
  | t :: _ => t = .comma || t = close

def endsFlowKey (close : Token) : List Token → Bool
  | [] => false
  | t :: _ => t = .value || t = .comma || t = close

mutual

/-- One node. In a block mapping a sequence may stand without indentation of its own. Every call
takes a token or goes to a part, so the fuel is a bound on the depth. -/
def parse (fuel : Nat) (blockAllowed indentless : Bool) (ns : Names) (ts : List Token) :
    Except Fault (Read Node) :=
  match fuel with
  | 0 => .error .arrangement
  | fuel + 1 =>
    match ts with
    | .aliasOf name :: rest =>
      match ns.anchors.lookup name with
      | some n => .ok (.aliasOf n, ns, rest)
      | none => .error .anchor
    | _ => do
      let (m, ns, ts') ← marks ns ts
      match ts' with
      | .scalar style text :: rest =>
        return (.scalar (unmarked m) style text, ns, rest)
      | .flowSequence :: rest =>
        let (items, ns, rest) ← flowItems fuel true ns rest
        return (.sequence m items, ns, rest)
      | .flowMapping :: rest =>
        let (entries, ns, rest) ← flowEntries fuel true ns rest
        return (.mapping m entries, ns, rest)
      | .entry :: _ =>
        if indentless then
          let (items, ns, rest) ← indentlessItems fuel ns ts'
          return (.sequence m items, ns, rest)
        else if m = {} then throw .arrangement
        else return (.scalar m .plain [], ns, ts')
      | .blockSequence :: rest =>
        if blockAllowed then
          let (items, ns, rest) ← blockItems fuel ns rest
          return (.sequence m items, ns, rest)
        else if m = {} then throw .arrangement
        else return (.scalar m .plain [], ns, ts')
      | .blockMapping :: rest =>
        if blockAllowed then
          let (entries, ns, rest) ← blockEntries fuel ns rest
          return (.mapping m entries, ns, rest)
        else if m = {} then throw .arrangement
        else return (.scalar m .plain [], ns, ts')
      | _ =>
        if m = {} then throw .arrangement
        else return (.scalar m .plain [], ns, ts')

def blockItems (fuel : Nat) (ns : Names) (ts : List Token) : Except Fault (Read (List Node)) :=
  match fuel with
  | 0 => .error .arrangement
  | fuel + 1 =>
    match ts with
    | .blockEnd :: rest => .ok ([], ns, rest)
    | .entry :: rest => do
      let (item, ns, rest) ←
        if endsBlockItem rest then pure (missing, ns, rest) else parse fuel true false ns rest
      let (items, ns, rest) ← blockItems fuel ns rest
      return (item :: items, ns, rest)
    | _ => .error .arrangement

def indentlessItems (fuel : Nat) (ns : Names) (ts : List Token) : Except Fault (Read (List Node)) :=
  match fuel with
  | 0 => .error .arrangement
  | fuel + 1 =>
    match ts with
    | .entry :: rest => do
      let (item, ns, rest) ←
        if endsIndentless rest then pure (missing, ns, rest) else parse fuel true false ns rest
      let (items, ns, rest) ← indentlessItems fuel ns rest
      return (item :: items, ns, rest)
    | _ => .ok ([], ns, ts)

def blockEntries (fuel : Nat) (ns : Names) (ts : List Token) :
    Except Fault (Read (List (Node × Node))) :=
  match fuel with
  | 0 => .error .arrangement
  | fuel + 1 =>
    match ts with
    | .blockEnd :: rest => .ok ([], ns, rest)
    | .key :: rest => do
      let (k, ns, rest) ←
        if endsBlockPart rest then pure (missing, ns, rest) else parse fuel true true ns rest
      let (v, ns, rest) ← blockValue fuel ns rest
      let (entries, ns, rest) ← blockEntries fuel ns rest
      return ((k, v) :: entries, ns, rest)
    | _ => .error .arrangement

def blockValue (fuel : Nat) (ns : Names) (ts : List Token) : Except Fault (Read Node) :=
  match fuel with
  | 0 => .error .arrangement
  | fuel + 1 =>
    match ts with
    | .value :: rest =>
      if endsBlockPart rest then .ok (missing, ns, rest) else parse fuel true true ns rest
    | _ => .ok (missing, ns, ts)

def flowItems (fuel : Nat) (first : Bool) (ns : Names) (ts : List Token) :
    Except Fault (Read (List Node)) :=
  match fuel with
  | 0 => .error .arrangement
  | fuel + 1 =>
    match ts with
    | .flowSequenceEnd :: rest => .ok ([], ns, rest)
    | _ => do
      let ts ← match first, ts with
        | true, ts => pure ts
        | false, .comma :: rest => pure rest
        | false, _ => throw .arrangement
      match ts with
      | .flowSequenceEnd :: rest => return ([], ns, rest)
      | .key :: rest =>
        let (k, ns, rest) ←
          if endsFlowKey .flowSequenceEnd rest then pure (missing, ns, rest.drop 1)
          else parse fuel false false ns rest
        let (v, ns, rest) ← flowValue fuel .flowSequenceEnd ns rest
        let (items, ns, rest) ← flowItems fuel false ns rest
        return (.mapping {} [(k, v)] :: items, ns, rest)
      | _ =>
        let (item, ns, rest) ← parse fuel false false ns ts
        let (items, ns, rest) ← flowItems fuel false ns rest
        return (item :: items, ns, rest)

def flowEntries (fuel : Nat) (first : Bool) (ns : Names) (ts : List Token) :
    Except Fault (Read (List (Node × Node))) :=
  match fuel with
  | 0 => .error .arrangement
  | fuel + 1 =>
    match ts with
    | .flowMappingEnd :: rest => .ok ([], ns, rest)
    | _ => do
      let ts ← match first, ts with
        | true, ts => pure ts
        | false, .comma :: rest => pure rest
        | false, _ => throw .arrangement
      match ts with
      | .flowMappingEnd :: rest => return ([], ns, rest)
      | .key :: rest =>
        let (k, ns, rest) ←
          if endsFlowKey .flowMappingEnd rest then pure (missing, ns, rest)
          else parse fuel false false ns rest
        let (v, ns, rest) ← flowValue fuel .flowMappingEnd ns rest
        let (entries, ns, rest) ← flowEntries fuel false ns rest
        return ((k, v) :: entries, ns, rest)
      | _ =>
        let (k, ns, rest) ← parse fuel false false ns ts
        let (entries, ns, rest) ← flowEntries fuel false ns rest
        return ((k, missing) :: entries, ns, rest)

def flowValue (fuel : Nat) (close : Token) (ns : Names) (ts : List Token) :
    Except Fault (Read Node) :=
  match fuel with
  | 0 => .error .arrangement
  | fuel + 1 =>
    match ts with
    | .value :: rest =>
      if endsFlowPart close rest then .ok (missing, ns, rest) else parse fuel false false ns rest
    | _ => .ok (missing, ns, ts)

end

/-- The directives before a document: at most one version, which has to be 1.1 or 1.2, and no
handle twice. The primary and the secondary handle have a meaning unless they are given one. -/
def directives : List Token → Bool → List (List Char × List UInt8) →
    Except Fault (List (List Char × List UInt8) × List Token)
  | .version major minor :: rest, seen, handles =>
    if seen || major ≠ 1 || (minor ≠ 1 && minor ≠ 2) then .error .directive
    else directives rest true handles
  | .tagHandle handle start :: rest, seen, handles =>
    if (handles.lookup handle).isSome then .error .directive
    else directives rest seen ((handle, start) :: handles)
  | ts, _, handles =>
    let standard : List (List Char × List UInt8) :=
      [(['!'], [33]), (['!', '!'], "tag:yaml.org,2002:".toUTF8.toList)]
    .ok (handles ++ standard, ts)

def atEnd (ts : List Token) : Bool := ts.all (· = .documentEnd)

def ofTokens? (ts : List Token) : Except Fault (Option Node) := do
  let fuel := 4 * ts.length + 4
  let content (ns : Names) (ts : List Token) (emptyAllowed : Bool) : Except Fault (Read Node) :=
    match ts with
    | [] => if emptyAllowed then .ok (missing, ns, ts) else .error .arrangement
    | .documentStart :: _ | .documentEnd :: _ | .version .. :: _ | .tagHandle .. :: _ =>
      if emptyAllowed then .ok (missing, ns, ts) else .error .arrangement
    | _ => parse fuel true false ns ts
  if ts.isEmpty then return none
  let (handles, rest) ← directives ts false []
  let (node, _, rest) ←
    match rest with
    | .documentStart :: rest => content { handles } rest true
    | _ =>
      if rest.length = ts.length then content { handles } rest false else throw .arrangement
  if atEnd rest then return some node else throw .severalDocuments

end Node

end Multicloud.Yaml
