import Multicloud.Disk.Script
import Multicloud.Run.Stored

namespace Multicloud

/-- Complete runs by key, in memory and, with a directory, in one file for each as well. A file that
cannot be read or written does not matter. -/
structure RunCache where
  entries : TextMap StoredRun := ∅
  dir : Option Path := none

namespace RunCache

def inMemory : RunCache := {}

def inDir (dir : Path) : RunCache := { dir := some dir }

def file? (c : RunCache) (key : String) : Option Path :=
  c.dir.map fun d ↦ d.join (Digest.short key 64 ++ ".json")

def readFile (p : Path) : Script (Option StoredRun) := do
  match ← Script.readText p with
  | .ok s => return StoredRun.ofText? s
  | .error _ => return none

/-- What was read from a file stays in memory. -/
def get (c : RunCache) (key : String) : Script (Option StoredRun × RunCache) := do
  match c.entries[key]?, c.file? key with
  | some run, _ => return (some run, c)
  | none, none => return (none, c)
  | none, some p =>
    match ← readFile p with
    | some run => return (some run, { c with entries := c.entries.insert key run })
    | none => return (none, c)

/-- The file is complete from the moment that it has its name. -/
def writeFile (p : Path) (run : StoredRun) : Script (Except DiskError Unit) := ExceptT.run do
  if let some dir := p.parent? then
    Script.orElse (Script.makeDirs dir) id
  let draft := p.withExtension "json.tmp"
  Script.orElse (Script.write draft run.text) id
  Script.orElse (Script.rename draft p) id

def put (c : RunCache) (key : String) (run : StoredRun) : Script RunCache := do
  if let some p := c.file? key then
    let _ ← writeFile p run
  return { c with entries := c.entries.insert key run }

def size (c : RunCache) : Nat := c.entries.size

end RunCache

end Multicloud
