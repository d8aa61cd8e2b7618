import Multicloud.Name.Provider
import Multicloud.Name.Version
import Multicloud.Resource

namespace Multicloud

inductive MappingError where
  | unknownProvider (provider : Provider)
  | unknownVersion (provider : Provider) (version : Version)
  | noRuleForKind (kind : Kind) (provider : Provider)
  | unknownInstanceClass (provider : Provider) (name : String)
  | unknownPerformanceClass (provider : Provider) (name : String)
  | missingProperty (resource property : String)
  | unresolvedReference (resource reference : String)
  | identifierCollision (provider : Provider) (identifier first second : String)
  deriving DecidableEq

namespace MappingError

def message : MappingError → String
  | unknownProvider p => s!"provider '{p.name}' has no registered rule set"
  | unknownVersion p v => s!"provider '{p.name}' has no rule set version {v.text}"
  | noRuleForKind k p => s!"provider '{p.name}' has no rule for {k.name}"
  | unknownInstanceClass p c => s!"provider '{p.name}' has no instance type for class '{c}'"
  | unknownPerformanceClass p c =>
    s!"provider '{p.name}' has no storage tier for performance class '{c}'"
  | missingProperty r p => s!"resource '{r}' lacks property '{p}' required by the rule"
  | unresolvedReference r x => s!"resource '{r}' references '{x}', which has not been emitted"
  | identifierCollision p i a b => s!"'{a}' and '{b}' both map to identifier '{i}' on {p.name}"

end MappingError

/-- Why a target has no artifacts. Without a resource it failed before the first one. -/
structure TargetFailure where
  provider : Provider
  resource : Option String
  kind : Option Kind
  error : MappingError
  deriving DecidableEq

end Multicloud
