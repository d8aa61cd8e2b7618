import Multicloud.Disk.Path

namespace Multicloud

inductive DiskError where
  | notFound
  | present
  | notDirectory
  | isDirectory
  | invalid
  | busy
  | nameTooLong
  | notEmpty
  | zeroInPath
  | notText
  | other (code : Nat)
  deriving DecidableEq, Repr

namespace DiskError

def message : DiskError → String
  | notFound => "No such file or directory (os error 2)"
  | present => "File exists (os error 17)"
  | notDirectory => "Not a directory (os error 20)"
  | isDirectory => "Is a directory (os error 21)"
  | invalid => "Invalid argument (os error 22)"
  | busy => "Device or resource busy (os error 16)"
  | nameTooLong => "File name too long (os error 36)"
  | notEmpty => "Directory not empty (os error 39)"
  | zeroInPath => "file name contained an unexpected NUL byte"
  | notText => "stream did not contain valid UTF-8"
  | other code => s!"os error {Nat.repr code}"

end DiskError

inductive Tree where
  | file (bytes : ByteArray)
  | dir (entries : List (String × Tree))

namespace Tree

def isDir : Tree → Bool
  | dir _ => true
  | file _ => false

def find (name : String) : List (String × Tree) → Option Tree
  | [] => none
  | (n, t) :: rest => if n = name then some t else find name rest

def put (name : String) (t : Tree) : List (String × Tree) → List (String × Tree)
  | [] => [(name, t)]
  | (n, u) :: rest =>
    if n = name then (name, t) :: rest
    else if name < n then (name, t) :: (n, u) :: rest
    else (n, u) :: put name t rest

def erase (name : String) : List (String × Tree) → List (String × Tree)
  | [] => []
  | (n, u) :: rest => if n = name then rest else (n, u) :: erase name rest

def get? : Tree → List String → Option Tree
  | t, [] => some t
  | file _, _ :: _ => none
  | dir entries, name :: rest =>
    match find name entries with
    | some t => t.get? rest
    | none => none

/-- Puts something in place; what is not below a directory stays as it is. -/
def set : Tree → List String → Tree → Tree
  | _, [], new => new
  | file bytes, _ :: _, _ => file bytes
  | dir entries, [name], new => dir (put name new entries)
  | dir entries, name :: rest, new =>
    match find name entries with
    | some t => dir (put name (t.set rest new) entries)
    | none => dir entries

def remove : Tree → List String → Tree
  | t, [] => t
  | file bytes, _ :: _ => file bytes
  | dir entries, [name] => dir (erase name entries)
  | dir entries, name :: rest =>
    match find name entries with
    | some t => dir (put name (t.remove rest) entries)
    | none => dir entries

def maxName : Nat := 255

def maxPath : Nat := 4095

/-- Goes through names from a directory, backwards at two dots. All but the last have to be
directories. -/
def enter (root : Tree) : List String → List String → Except DiskError (List String)
  | done, [] => .ok done.reverse
  | done, name :: rest =>
    match root.get? done.reverse with
    | none => .error .notFound
    | some (file _) => .error .notDirectory
    | some (dir _) =>
      if maxName < name.utf8ByteSize then .error .nameTooLong
      else if name = ".." then enter root (done.drop 1) rest
      else enter root (name :: done) rest

/-- The place of a path, whether anything is there or not. -/
def place (root : Tree) (p : Path) : Except DiskError (List String) :=
  if p.text.toList.contains '\x00' then .error .zeroInPath
  else if p.text.isEmpty then .error .notFound
  else if maxPath < p.text.utf8ByteSize then .error .nameTooLong
  else enter root [] p.steps

def at? (root : Tree) (p : Path) : Except DiskError (List String × Tree) := do
  let names ← root.place p
  match root.get? names with
  | none => throw .notFound
  | some (file bytes) => if p.asksDirectory then throw .notDirectory else return (names, file bytes)
  | some (dir entries) => return (names, dir entries)

end Tree

end Multicloud
