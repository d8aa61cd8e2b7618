import Multicloud.Emission
import Multicloud.Graph.Error
import Multicloud.Lock.Log
import Multicloud.Registry
import Multicloud.Settings
import Multicloud.Workload.Error

namespace Multicloud

inductive CommandError where
  | spec (error : SpecError)
  | graph (error : GraphError)
  | registry (error : RegistryError)
  | synthesis (error : SynthesisError)
  | lock (error : LockError)
  | settings (error : SettingsError)
  | emit (error : EmitError)
  | workloadPresent (path : Path)

namespace CommandError

def message : CommandError → String
  | spec e => e.message
  | graph e => e.message
  | registry e => e.message
  | synthesis e => e.message
  | lock e => e.message
  | settings e => e.message
  | emit e => e.message
  | workloadPresent path => path.text ++ " already exists"

end CommandError

structure Report where
  lines : List String
  failure : Option CommandError := none

namespace Report

def textOf (lines : List String) : String := String.join (lines.map (· ++ "\n"))

def text (r : Report) : String := textOf r.lines

def exitCode (r : Report) : Nat := if r.failure.isSome then 1 else 0

end Report

abbrev Work (α : Type) := Script.OrFail CommandError α

namespace Work

def part {ε α : Type} (f : ε → CommandError) (s : Script (Except ε α)) : Work α :=
  ExceptT.mk do return (← s).mapError f

def ofExcept {ε α : Type} (f : ε → CommandError) (r : Except ε α) : Work α :=
  ExceptT.mk (pure (r.mapError f))

def report (w : Work Report) : Script Report := do
  match ← w.run with
  | .ok r => return r
  | .error e => return { lines := [], failure := some e }

end Work

end Multicloud
