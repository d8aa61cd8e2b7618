import Multicloud.Command.Run
import Std.Time.DateTime.Timestamp

open System (FilePath)

namespace Multicloud.Main

def code : IO.Error → Nat
  | .alreadyExists _ n _ | .invalidArgument _ n _ | .permissionDenied _ n _
  | .resourceExhausted _ n _ | .inappropriateType _ n _ | .noSuchThing _ n _
  | .noFileOrDirectory _ n _ | .interrupted _ n _
  | .otherError n _ | .resourceBusy n _ | .resourceVanished n _ | .unsupportedOperation n _
  | .hardwareFault n _ | .unsatisfiedConstraints n _ | .illegalOperation n _
  | .protocolError n _ | .timeExpired n _ => n.toNat
  | .unexpectedEof | .userError _ => 5

def diskError (e : IO.Error) : DiskError :=
  match code e with
  | 2 => .notFound
  | 16 => .busy
  | 17 => .present
  | 20 => .notDirectory
  | 21 => .isDirectory
  | 22 => .invalid
  | 36 => .nameTooLong
  | 39 => .notEmpty
  | n => .other n

def attempt {α : Type} (act : IO α) : IO (Except DiskError α) := do
  try
    return .ok (← act)
  catch e => return .error (diskError e)

def filePath (p : Path) : FilePath := ⟨p.text⟩

def find (p : FilePath) : IO (Option Bool) := do
  if ← p.pathExists then return some !(← p.isDir) else return none

def appendTo (p : FilePath) (bytes : ByteArray) : IO Unit :=
  IO.FS.withFile p .append fun h ↦ h.write bytes

/-- What is in the directory is removed by its real path, as the way there can lead through it. -/
def removeTree (p : FilePath) : IO Unit := do
  let real ← IO.FS.realPath p
  for entry in ← real.readDir do
    if ← entry.path.isDir then IO.FS.removeDirAll entry.path else IO.FS.removeFile entry.path
  try IO.FS.removeDir p
  catch e => if code e ≠ 2 then throw e

def perform : (op : DiskOp) → IO op.Answer
  | .read p => attempt (IO.FS.readBinFile (filePath p))
  | .list p => attempt do return ((← (filePath p).readDir).map (·.fileName)).toList.mergeSort
  | .find p => find (filePath p)
  | .write p bytes => attempt (IO.FS.writeBinFile (filePath p) bytes)
  | .append p bytes => attempt (appendTo (filePath p) bytes)
  | .makeDirs p => attempt (IO.FS.createDirAll (filePath p))
  | .removeTree p => attempt (removeTree (filePath p))
  | .removeFile p => attempt (IO.FS.removeFile (filePath p))
  | .rename source target => attempt (IO.FS.rename (filePath source) (filePath target))

def execute {α : Type} : Script α → IO α
  | .done a => return a
  | .perform op next => do execute (next (← perform op))

def now : IO Instant := do
  let t ← Std.Time.Timestamp.now
  match Instant.of? t.val.second.val t.val.nano.val.toNat with
  | some t => return t
  | none => throw (IO.userError "the clock is out of range")

def usage : String :=
  "usage: nebulaforge [-v] " ++
    "init|validate|graph|synthesize|verify-plan|lock|registry|clean [options]"

def refuse (fault : UsageFault) : IO UInt32 := do
  match fault with
  | .help => IO.println usage
  | .version => IO.println LockLog.generator
  | _ => IO.eprintln usage
  return fault.exitCode.toUInt32

def run (args : List String) : IO UInt32 := do
  match Command.ofArguments args with
  | .error fault => refuse fault
  | .ok command =>
    let report ← execute (command.run (← now))
    IO.print report.text
    if let some e := report.failure then
      IO.eprintln s!"error: {e.message}"
    return report.exitCode.toUInt32

end Multicloud.Main

def main (args : List String) : IO UInt32 := Multicloud.Main.run args
