import Multicloud.Name.Label

namespace Multicloud

/-- A file path, as it is written: joining and shortening keep the text of what stays. -/
structure Path where
  text : String
  deriving DecidableEq

namespace Path

def isAbsolute (p : Path) : Bool := p.text.toList.head? == some '/'

def join (p : Path) (s : String) : Path :=
  if isAbsolute ⟨s⟩ || p.text.isEmpty then ⟨s⟩
  else if p.text.toList.getLast? = some '/' then ⟨p.text ++ s⟩
  else ⟨p.text ++ "/" ++ s⟩

def pieces (p : Path) : List (List Char) := Name.splitAt '/' p.text.toList

def isIdle (piece : List Char) : Bool := piece.isEmpty || piece = ['.']

def steps (p : Path) : List String :=
  (p.pieces.filter fun piece ↦ !isIdle piece).map String.ofList

/-- Whether the path can only be that of a directory. -/
def asksDirectory (p : Path) : Bool :=
  match p.pieces.getLast? with
  | some piece => isIdle piece
  | none => false

def dropIdleEnd (pieces : List (List Char)) : List (List Char) :=
  match pieces with
  | [] => []
  | first :: rest => first :: (rest.reverse.dropWhile isIdle).reverse

def ofPieces : List (List Char) → Path
  | [[]] => ⟨"/"⟩
  | pieces => ⟨String.ofList (['/'].intercalate pieces)⟩

def parent? (p : Path) : Option Path :=
  match dropIdleEnd p.pieces with
  | [] => none
  | [[]] => none
  | [_] => some ⟨""⟩
  | pieces => some (ofPieces (dropIdleEnd pieces.dropLast))

def fileName? (p : Path) : Option (List Char) :=
  match (dropIdleEnd p.pieces).getLast? with
  | none => none
  | some name => if isIdle name || name = ['.', '.'] then none else some name

/-- A name cut at its last dot; a dot in front is no cut. -/
def splitName (name : List Char) : List Char × Option (List Char) :=
  let after := name.reverse.takeWhile (· ≠ '.')
  let before := (name.reverse.drop (after.length + 1)).reverse
  if before.isEmpty then (name, none) else (before, some after.reverse)

def extension? (p : Path) : Option String := do
  let name ← p.fileName?
  (splitName name).2.map String.ofList

def withExtension (p : Path) (extension : String) : Path :=
  match p.fileName? with
  | none => p
  | some name =>
    let pieces := (dropIdleEnd p.pieces).dropLast
    ofPieces (pieces ++ [(splitName name).1 ++ '.' :: extension.toList])

end Path

end Multicloud
