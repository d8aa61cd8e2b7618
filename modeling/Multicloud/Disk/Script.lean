import Multicloud.Disk.Tree

namespace Multicloud

inductive DiskOp where
  | read (path : Path)
  | list (path : Path)
  | find (path : Path)
  | write (path : Path) (bytes : ByteArray)
  | append (path : Path) (bytes : ByteArray)
  | makeDirs (path : Path)
  | removeTree (path : Path)
  | removeFile (path : Path)
  | rename (source target : Path)

namespace DiskOp

abbrev Answer : DiskOp → Type
  | read _ => Except DiskError ByteArray
  | list _ => Except DiskError (List String)
  | find _ => Option Bool
  | _ => Except DiskError Unit

def readFile (root : Tree) (p : Path) : Except DiskError ByteArray := do
  match ← root.at? p with
  | (_, .file bytes) => return bytes
  | (_, .dir _) => throw .isDirectory

def listDir (root : Tree) (p : Path) : Except DiskError (List String) := do
  match ← root.at? p with
  | (_, .file _) => throw .notDirectory
  | (_, .dir entries) => return entries.map Prod.fst

def findAt (root : Tree) (p : Path) : Option Bool :=
  match root.at? p with
  | .ok (_, t) => some !t.isDir
  | .error _ => none

/-- Puts bytes made from the old ones, if any, into a file. -/
def change (root : Tree) (p : Path) (f : Option ByteArray → ByteArray) :
    Except DiskError Tree := do
  let names ← root.place p
  match root.get? names with
  | some (.dir _) => throw .isDirectory
  | some (.file old) =>
    if p.asksDirectory then throw .notDirectory else return root.set names (.file (f (some old)))
  | none =>
    if p.asksDirectory then throw .isDirectory else return root.set names (.file (f none))

def addDirs (root : Tree) : List String → List String → Except DiskError Unit × Tree
  | _, [] => (.ok (), root)
  | done, name :: rest =>
    if name = ".." then addDirs root (done.take (done.length - 1)) rest
    else if Tree.maxName < name.utf8ByteSize then (.error .nameTooLong, root)
    else
      let names := done ++ [name]
      match root.get? names with
      | some (.dir _) => addDirs root names rest
      | some (.file _) => (.error (if rest.isEmpty then .present else .notDirectory), root)
      | none => addDirs (root.set names (.dir [])) names rest

def makeAll (root : Tree) (p : Path) : Except DiskError Unit × Tree :=
  if p.text.toList.contains '\x00' then (.error .zeroInPath, root)
  else if Tree.maxPath < p.text.utf8ByteSize then (.error .nameTooLong, root)
  else addDirs root [] p.steps

/-- Why no directory can be removed by the name that a path ends with. -/
def endFault? (p : Path) : Option DiskError :=
  match (p.pieces.filter fun piece ↦ !piece.isEmpty).getLast? with
  | none => some .busy
  | some ['.'] => some .invalid
  | some ['.', '.'] => some .notEmpty
  | some _ => none

/-- A directory is emptied, and then its path is followed again to remove it. It stays where the way
led through what was in it, which is no failure, and where the path ends with dots. -/
def removeAll (root : Tree) (p : Path) : Except DiskError Unit × Tree :=
  match root.at? p with
  | .error e => (.error e, root)
  | .ok (_, .file _) => (.error .notDirectory, root)
  | .ok (names, .dir _) =>
    let emptied := root.set names (.dir [])
    match emptied.place p, endFault? p with
    | .ok _, none => (.ok (), root.remove names)
    | .ok _, some e => (.error e, emptied)
    | .error .notFound, _ => (.ok (), emptied)
    | .error e, _ => (.error e, emptied)

def unlink (root : Tree) (p : Path) : Except DiskError Tree := do
  match ← root.at? p with
  | (names, .file _) => return root.remove names
  | (_, .dir _) => throw .isDirectory

/-- A file takes the place of a file, a directory that of an empty directory. -/
def move (root : Tree) (source target : Path) : Except DiskError Tree := do
  let (names, t) ← root.at? source
  let newNames ← root.place target
  if names = newNames then return root
  if names.isPrefixOf newNames then throw .invalid
  let moved := (root.remove names).set newNames t
  match t, root.get? newNames with
  | .file _, none => if target.asksDirectory then throw .notDirectory else return moved
  | .dir _, none => return moved
  | .file _, some (.file _) => return moved
  | .file _, some (.dir _) => throw .isDirectory
  | .dir _, some (.file _) => throw .notDirectory
  | .dir _, some (.dir entries) => if entries.isEmpty then return moved else throw .notEmpty

def commit (root : Tree) : Except DiskError Tree → Except DiskError Unit × Tree
  | .ok new => (.ok (), new)
  | .error e => (.error e, root)

def run (root : Tree) : (op : DiskOp) → op.Answer × Tree
  | read p => (readFile root p, root)
  | list p => (listDir root p, root)
  | find p => (findAt root p, root)
  | write p bytes => commit root (change root p fun _ ↦ bytes)
  | append p bytes => commit root (change root p fun old ↦ old.getD .empty ++ bytes)
  | makeDirs p => makeAll root p
  | removeTree p => removeAll root p
  | removeFile p => commit root (unlink root p)
  | rename source target => commit root (move root source target)

end DiskOp

/-- Work on the disk as a plan: a next step, and what to do with its answer. Nothing but the steps
touches the disk, so any of them can be made to fail. -/
inductive Script (α : Type) where
  | done (result : α)
  | perform (op : DiskOp) (next : op.Answer → Script α)

namespace Script

def bind {α β : Type} : Script α → (α → Script β) → Script β
  | done a, f => f a
  | perform op next, f => perform op fun answer ↦ (next answer).bind f

instance : Monad Script where
  pure := done
  bind := bind

def step (op : DiskOp) : Script op.Answer := perform op done

def run {α : Type} : Script α → Tree → α × Tree
  | done a, root => (a, root)
  | perform op next, root =>
    let r := op.run root
    (next r.1).run r.2

def read (p : Path) : Script (Except DiskError ByteArray) := step (.read p)

def readText (p : Path) : Script (Except DiskError String) := do
  match ← read p with
  | .error e => return .error e
  | .ok bytes =>
    match String.fromUTF8? bytes with
    | some s => return .ok s
    | none => return .error .notText

def list (p : Path) : Script (Except DiskError (List String)) := step (.list p)

def isPresent (p : Path) : Script Bool := do return (← step (.find p)).isSome

def isFile (p : Path) : Script Bool := do return (← step (.find p)) == some true

def write (p : Path) (s : String) : Script (Except DiskError Unit) := step (.write p s.toUTF8)

def append (p : Path) (s : String) : Script (Except DiskError Unit) := step (.append p s.toUTF8)

def makeDirs (p : Path) : Script (Except DiskError Unit) := step (.makeDirs p)

def removeTree (p : Path) : Script (Except DiskError Unit) := step (.removeTree p)

def removeFile (p : Path) : Script (Except DiskError Unit) := step (.removeFile p)

def rename (source target : Path) : Script (Except DiskError Unit) := step (.rename source target)

abbrev OrFail (ε α : Type) := ExceptT ε Script α

def orElse {α ε : Type} (s : Script (Except DiskError α)) (f : DiskError → ε) : OrFail ε α :=
  ExceptT.mk do return (← s).mapError f

end Script

end Multicloud
