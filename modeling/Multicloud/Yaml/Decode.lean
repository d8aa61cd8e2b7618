import Multicloud.Yaml.Value

namespace Multicloud.Yaml.Document

def isEmptyPlain (style : Style) (s : List Char) : Bool := style = .plain && s.isEmpty

/-- What is written is a text, whether it looks like a number or not, and tags do not count. -/
def textOf (doc : Document) (n : Node) : Reading String := do
  match ← doc.follow n with
  | .scalar _ _ s => return String.ofList s
  | _ => throw .shape

/-- A text that may be null. A tag, other than that of null, leaves only the empty text null. -/
def optionalTextOf (doc : Document) (n : Node) : Reading (Option String) := do
  match ← doc.follow n with
  | .scalar m style s =>
    if style ≠ .plain then return some (String.ofList s)
    else match m.tag with
      | none => return if s.isEmpty || Scalar.isNull s then none else some (String.ofList s)
      | some tag =>
        if tag = "tag:yaml.org,2002:null".toUTF8.toList then
          if Scalar.isNull s then return none else throw .shape
        else return if s.isEmpty then none else some (String.ofList s)
  | _ => throw .shape

def nameOf (doc : Document) (n : Node) : Reading String := do
  match ← doc.follow n with
  | .scalar m style s =>
    match ownTag? m with
    | none => return String.ofList s
    | some tag =>
      if style = .plain && (s.isEmpty || Scalar.isNull s) then return tag else throw .shape
  | _ => throw .shape

def itemsOf (doc : Document) (n : Node) : Reading (List Node) := do
  match ← doc.follow n with
  | .sequence _ items => return items
  | .scalar _ style s => if isEmptyPlain style s then return [] else throw .shape
  | _ => throw .shape

def entriesOf (doc : Document) (n : Node) : Reading (List (Node × Node)) := do
  match ← doc.follow n with
  | .mapping _ entries => return entries
  | .scalar _ style s => if isEmptyPlain style s then return [] else throw .shape
  | _ => throw .shape

abbrev Fields := List (String × Node)

def fieldsOf (doc : Document) (known : List String) (n : Node) : Reading Fields := do
  (← doc.entriesOf n).foldlM (fun fields (k, v) ↦ do
    let name ← doc.textOf k
    if name ∈ known ∧ (fields.lookup name).isNone then return fields ++ [(name, v)]
    else throw .shape) []

def required {α : Type} (fields : Fields) (name : String) (read : Node → Reading α) :
    Reading α :=
  match fields.lookup name with
  | some n => read n
  | none => throw .shape

def optional {α : Type} (fields : Fields) (name : String) (default : α)
    (read : Node → Reading α) : Reading α :=
  match fields.lookup name with
  | some n => read n
  | none => return default

end Multicloud.Yaml.Document
