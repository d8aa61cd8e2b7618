import Multicloud.Disk.Script
import Multicloud.Lock.Entry
import Multicloud.Text.Blank
import Std.Data.ExtTreeSet.Lemmas

namespace Multicloud

inductive LockError where
  | io (path : Path) (cause : DiskError)
  | corrupt (path : Path) (line : Nat)
  deriving DecidableEq

namespace LockError

def message : LockError → String
  | io path cause => s!"lockfile {path.text}: {cause.message}"
  | corrupt path line => s!"lockfile {path.text} line {line} is corrupt"

end LockError

/-- A file with one entry a line. Entries are added at the end and never changed. -/
structure LockLog where
  path : Path

namespace LockLog

def standardPath : Path := ⟨"nebulaforge.lock"⟩

def generator : String := "nebulaforge 0.3.0"

/-- The entries of the lines from a number on, or the number of the first that has none. Blank lines
do not matter. -/
def entriesFrom : Nat → List (List Char) → Except Nat (List LockEntry)
  | _, [] => .ok []
  | n, line :: rest => do
    if (Text.trim line).isEmpty then entriesFrom (n + 1) rest
    else match LockEntry.ofLine? line with
      | none => throw n
      | some e => return e :: (← entriesFrom (n + 1) rest)

def entries (text : String) : Except Nat (List LockEntry) :=
  entriesFrom 1 (Name.splitAt '\n' text.toList)

/-- The entries in the order of the file. No file is an empty log. -/
def history (log : LockLog) : Script (Except LockError (List LockEntry)) := do
  match ← Script.readText log.path with
  | .error .notFound => return .ok []
  | .error e => return .error (.io log.path e)
  | .ok text => return (entries text).mapError (.corrupt log.path)

def later (a b : LockEntry) : LockEntry := if (compare a.time b.time).isGT then a else b

/-- The entry with the greatest time, the last of these. -/
def latest : List LockEntry → Option LockEntry
  | [] => none
  | e :: rest => some (rest.foldl later e)

def last (log : LockLog) : Script (Except LockError (Option LockEntry)) := do
  return (← log.history).map latest

def lastFor (log : LockLog) (workload : String) :
    Script (Except LockError (Option LockEntry)) := do
  return (← log.history).map fun es ↦ latest (es.filter fun e ↦ e.workload == workload)

/-- A log that cannot be read has no last entry. -/
def previous (log : LockLog) (workload : String) : Script (Option LockEntry) := do
  match ← log.lastFor workload with
  | .ok e => return e
  | .error _ => return none

def entry (now : Instant) (workload graphHash : String) (b : Binding) (targets : List Provider) :
    LockEntry where
  runId := now.runId
  workload := workload
  graphHash := graphHash
  binding := b
  targets := (Std.ExtTreeSet.ofList targets compare).toList
  time := now
  generator := generator

/-- Adds an entry by a single append. -/
def commit (log : LockLog) (now : Instant) (workload graphHash : String) (b : Binding)
    (targets : List Provider) : Script (Except LockError LockEntry) := ExceptT.run do
  let e := entry now workload graphHash b targets
  if let some dir := log.path.parent? then
    if !dir.text.isEmpty then
      Script.orElse (Script.makeDirs dir) (LockError.io dir)
  Script.orElse (Script.append log.path (e.toJson.line ++ "\n")) (LockError.io log.path)
  return e

end LockLog

end Multicloud
