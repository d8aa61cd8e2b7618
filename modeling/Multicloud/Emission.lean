import Multicloud.Disk.Script
import Multicloud.Run.Outcome

namespace Multicloud

inductive EmitError where
  | io (path : Path) (cause : DiskError)
  deriving DecidableEq

namespace EmitError

def message : EmitError → String
  | io path cause => s!"cannot write {path.text}: {cause.message}"

end EmitError

namespace Emission

def compositionDir : String := "crossplane"

def at' {α : Type} (p : Path) (s : Script (Except DiskError α)) : Script.OrFail EmitError α :=
  Script.orElse s (EmitError.io p)

def removeIfPresent (dir : Path) : Script.OrFail EmitError Unit := do
  match ← Script.removeTree dir with
  | .ok () => return ()
  | .error .notFound => return ()
  | .error e => throw (.io dir e)

def staging (out : Path) (name : String) : Path := out.join ("." ++ name ++ ".staging")

def retired (out : Path) (name : String) : Path := out.join ("." ++ name ++ ".old")

def writeFiles (dir : Path) : List Artifact → Script.OrFail EmitError Unit
  | [] => return ()
  | a :: rest => do
    let p := dir.join a.fileName
    at' p (Script.write p a.body)
    writeFiles dir rest

/-- Writes the tree of a target. It is made ready beside its place, so that the place holds the old
tree or the new one. -/
def writeTree (out : Path) (workload : String) (target : Provider) (artifacts : List Artifact) :
    Script.OrFail EmitError Path := do
  let name := Artifact.treeName target workload
  let dest := out.join name
  let staging := staging out name
  let retired := retired out name
  removeIfPresent staging
  removeIfPresent retired
  at' staging (Script.makeDirs staging)
  writeFiles staging artifacts
  if ← Script.isPresent dest then
    at' dest (Script.rename dest retired)
  at' dest (Script.rename staging dest)
  removeIfPresent retired
  return dest

def writeComposition (out : Path) (c : Composition) : Script.OrFail EmitError Path := do
  let dir := out.join compositionDir
  at' dir (Script.makeDirs dir)
  let p := dir.join c.fileName
  let draft := p.withExtension "yaml.tmp"
  at' draft (Script.write draft c.body)
  at' p (Script.rename draft p)
  return p

def removeComposition (out : Path) : Script.OrFail EmitError Bool := do
  let p := (out.join compositionDir).join Composition.standardName
  match ← Script.removeFile p with
  | .ok () => return true
  | .error .notFound => return false
  | .error e => throw (.io p e)

def writeTrees (out : Path) (workload : String) :
    List (Provider × List Artifact) → Script.OrFail EmitError (List Path)
  | [] => return []
  | (target, artifacts) :: rest => do
    let p ← writeTree out workload target artifacts
    return p :: (← writeTrees out workload rest)

/-- Writes what a run came to. A complete run without a composition removes that of an earlier run,
which would name targets that are not the ones of this run. -/
def writeOutcome (out : Path) (workload : String) (o : Outcome) :
    Script.OrFail EmitError (List Path) := do
  let trees ← writeTrees out workload o.artifacts.toList
  match o.composition with
  | some c => return trees ++ [← writeComposition out c]
  | none =>
    if o.isComplete then
      let _ ← removeComposition out
    return trees

end Emission

end Multicloud
