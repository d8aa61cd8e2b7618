import Multicloud.Binary64.Shortest
import Multicloud.Yaml.Node
import Multicloud.Yaml.Scalar
import Multicloud.Yaml.Token.Lexer

namespace Multicloud.Yaml

inductive Value where
  | null
  | bool (value : Bool)
  | int (value : Int)
  | float (value : Binary64)
  | text (value : String)
  | list (items : List Value)
  | mapping (entries : List (Value × Value))
  | tagged (tag : String) (value : Value)

namespace Value

def ofScalar : Scalar → Value
  | .null => null
  | .bool b => bool b
  | .int n => int n
  | .float x => float x
  | .text s => text (String.ofList s)

def lookup (key : String) (entries : List (Value × Value)) : Option Value :=
  match entries with
  | [] => none
  | (text k, v) :: rest => if k = key then some v else lookup key rest
  | _ :: rest => lookup key rest

def text? : Value → Option String
  | text s => some s
  | tagged _ v => v.text?
  | _ => none

def bareTag (tag : String) : List Char :=
  match tag.toList with
  | '!' :: c :: rest => c :: rest
  | s => s

mutual

/-- Equality of keys. The order of the entries of a mapping does not count. -/
def same : Value → Value → Bool
  | null, null => true
  | bool x, bool y => x = y
  | int x, int y => x = y
  | float x, float y => x.sameValue y
  | text x, text y => x = y
  | list xs, list ys => sameAll xs ys
  | mapping xs, mapping ys => xs.length = ys.length && sameEntries xs ys
  | tagged s x, tagged t y => bareTag s = bareTag t && same x y
  | _, _ => false

def sameAll : List Value → List Value → Bool
  | [], [] => true
  | x :: xs, y :: ys => same x y && sameAll xs ys
  | _, _ => false

def sameEntries : List (Value × Value) → List (Value × Value) → Bool
  | [], _ => true
  | (k, v) :: rest, ys => (ys.any fun e ↦ same k e.1 && same v e.2) && sameEntries rest ys

end

end Value

namespace Node

mutual

/-- How many marks a node makes in a document: one for a scalar or an alias, and two for the ends of
a collection. -/
def events : Node → Nat
  | scalar .. => 1
  | aliasOf _ => 1
  | sequence _ items => eventsOfAll items + 2
  | mapping _ entries => eventsOfEntries entries + 2

def eventsOfAll : List Node → Nat
  | [] => 0
  | n :: rest => n.events + eventsOfAll rest

def eventsOfEntries : List (Node × Node) → Nat
  | [] => 0
  | (k, v) :: rest => k.events + v.events + eventsOfEntries rest

end

mutual

def anchored : Node → List (Nat × Node)
  | scalar m s t => own m (scalar m s t)
  | aliasOf _ => []
  | sequence m items => own m (sequence m items) ++ anchoredOfAll items
  | mapping m entries => own m (mapping m entries) ++ anchoredOfEntries entries

def own (m : Marks) (n : Node) : List (Nat × Node) :=
  match m.anchor with
  | some number => [(number, n)]
  | none => []

def anchoredOfAll : List Node → List (Nat × Node)
  | [] => []
  | n :: rest => n.anchored ++ anchoredOfAll rest

def anchoredOfEntries : List (Node × Node) → List (Nat × Node)
  | [] => []
  | (k, v) :: rest => k.anchored ++ v.anchored ++ anchoredOfEntries rest

end

end Node

structure Document where
  root : Node
  /-- Latest first: of two nodes with one number the later counts. -/
  anchors : List (Nat × Node)
  limit : Nat

abbrev Reading (α : Type) := StateT Nat (Except Fault) α

namespace Document

def ofRoot (root : Node) : Document :=
  { root, anchors := root.anchored.reverse, limit := 100 * root.events }

def ofText? (text : List Char) : Except Fault Document := do
  let root ← Node.ofTokens? (← tokens? text)
  return ofRoot (root.getD .missing)

def ofBytes? (bytes : ByteArray) : Except Fault Document :=
  match String.fromUTF8? bytes with
  | some s => ofText? s.toList
  | none => .error .encoding

def follow (doc : Document) (n : Node) : Reading Node := do
  match n with
  | .aliasOf number =>
    let count ← get
    if doc.limit < count + 1 then throw .repetition
    set (count + 1)
    match doc.anchors.lookup number with
    | some target => return target
    | none => throw .anchor
  | n => return n

def ownTag? (m : Marks) : Option String :=
  match m.tag with
  | some (33 :: rest) => String.fromUTF8? (if rest.isEmpty then [33] else rest).toByteArray
  | _ => none

def scalar (tag : Option (List UInt8)) (style : Style) (s : List Char) : Except Fault Scalar :=
  let untagged : Except Fault Scalar := if style = .plain then Scalar.ofPlain s else .ok (.text s)
  match tag with
  | none => untagged
  | some (33 :: _) => untagged
  | some tag => Scalar.ofTagged tag s

def withTag (m : Marks) (v : Value) : Value :=
  match ownTag? m with
  | some tag => .tagged tag v
  | none => v

def addEntry (entries : List (Value × Value)) (k v : Value) :
    Except Fault (List (Value × Value)) :=
  if entries.any fun e ↦ e.1.same k then .error .duplicateKey else .ok (entries ++ [(k, v)])

def value (doc : Document) (depth : Nat) (n : Node) : Reading Value := do
  match ← doc.follow n with
  | .scalar m style s => return withTag m (Value.ofScalar (← scalar m.tag style s))
  | .aliasOf _ => throw .anchor
  | .sequence m items =>
    match depth with
    | 0 => throw .depth
    | depth + 1 => return withTag m (.list (← items.mapM fun item ↦ doc.value depth item))
  | .mapping m entries =>
    match depth with
    | 0 => throw .depth
    | depth + 1 =>
      let entries ← entries.foldlM (fun acc (k, v) ↦ do
        addEntry acc (← doc.value depth k) (← doc.value depth v)) []
      return withTag m (.mapping entries)
termination_by structural depth

def maxDepth : Nat := 128

end Document

def Value.ofBytes? (bytes : ByteArray) : Except Fault Value := do
  let doc ← Document.ofBytes? bytes
  let (v, _) ← (doc.value Document.maxDepth doc.root).run 0
  return v

end Multicloud.Yaml
