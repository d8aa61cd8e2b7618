import Multicloud.Yaml.Value

namespace Multicloud

/-- Why a document is no workload. Paths are dotted field paths. -/
inductive SpecError where
  | missingField (path : String)
  | invalidType (path expected found : String)
  | unknownValue (path value allowed : String)
  | invalidValue (path reason : String)
  | notYaml (fault : Yaml.Fault)
  | notMapping (found : String)
  | unreadable (path reason : String)
  deriving DecidableEq

namespace SpecError

def message : SpecError → String
  | missingField path => s!"missing required field '{path}'"
  | invalidType path expected found => s!"field '{path}' must be {expected}, got {found}"
  | unknownValue path value allowed =>
    s!"field '{path}' has unknown value '{value}' (expected one of: {allowed})"
  | invalidValue path reason => s!"field '{path}' is invalid: {reason}"
  | notYaml _ => "workload document is not valid YAML"
  | notMapping found =>
    s!"workload document is not valid YAML: expected a mapping, got {found}"
  | unreadable path reason => s!"cannot read {path}: {reason}"

def fieldPath? : SpecError → Option String
  | missingField path | invalidType path .. | unknownValue path .. | invalidValue path _ =>
    some path
  | notYaml _ | notMapping _ | unreadable .. => none

end SpecError

end Multicloud
