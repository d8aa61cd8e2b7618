import Multicloud.Artifact.Walk
import Multicloud.Composition
import Multicloud.Run.Binding

namespace Multicloud

inductive SynthesisError where
  | noTargets
  | cancelled (completed : List Provider)
  | targetsFailed (failures : List TargetFailure)
  deriving DecidableEq

namespace SynthesisError

def message : SynthesisError → String
  | noTargets => "no synthesis targets requested"
  | cancelled completed =>
    s!"synthesis cancelled after {Nat.repr completed.length} completed target(s)"
  | targetsFailed failures =>
    s!"{Nat.repr failures.length} target(s) failed: " ++
      "; ".intercalate (failures.map TargetFailure.message)

end SynthesisError

inductive Mode where
  | full
  | incremental
  deriving DecidableEq, Repr

namespace Mode

def name : Mode → String
  | full => "full"
  | incremental => "incremental"

end Mode

abbrev FailureMap := Std.ExtTreeMap Provider TargetFailure

structure Outcome where
  mode : Mode
  graphHash : String
  /-- The targets that could be bound, and to which version. -/
  binding : Binding
  artifacts : ArtifactMap
  failures : FailureMap
  cancelled : List Provider
  composition : Option Composition
  deriving DecidableEq

/-- What is kept of a complete run. -/
structure StoredRun where
  artifacts : ArtifactMap
  composition : Option Composition
  deriving DecidableEq

namespace Outcome

def stored (o : Outcome) : StoredRun := ⟨o.artifacts, o.composition⟩

def isComplete (o : Outcome) : Bool := o.failures.isEmpty && o.cancelled.isEmpty

/-- Cancellation is told before failures are. -/
def check (o : Outcome) : Except SynthesisError Unit :=
  if !o.cancelled.isEmpty then .error (.cancelled o.artifacts.keys)
  else if !o.failures.isEmpty then .error (.targetsFailed o.failures.values)
  else .ok ()

end Outcome

end Multicloud
