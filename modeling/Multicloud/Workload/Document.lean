import Multicloud.Name.Label
import Multicloud.Text.Blank
import Multicloud.Workload.Error
import Multicloud.Workload.Spec

namespace Multicloud

namespace Yaml.Value

def typeName : Value → String
  | null => "null"
  | bool _ => "boolean"
  | int _ | float _ => "number"
  | text _ => "string"
  | list _ => "list"
  | mapping _ => "mapping"
  | tagged .. => "tagged value"

def describe : Value → String
  | int n => s!"number {n}"
  | float x => s!"number {x.display}"
  | text s => s!"string \"{s}\""
  | bool b => s!"boolean {b}"
  | v => v.typeName

end Yaml.Value

namespace WorkloadSpec

open Yaml (Value)

abbrev Fields := List (Value × Value)

def apiVersion : String := "infrastructure.nebulaforge.io/v1"

def documentKind : String := "WorkloadCluster"

def maxNodes : Nat := 1024

def join (parent key : String) : String := if parent.isEmpty then key else parent ++ "." ++ key

/-- A field that is null is a field that is not there. -/
def field? (m : Fields) (key : String) : Option Value :=
  match Value.lookup key m with
  | some .null => none
  | v => v

def optional {α : Type} (expected : String) (read : Value → Option α) (m : Fields)
    (parent key : String) : Except SpecError (Option α) :=
  match field? m key with
  | none => .ok none
  | some v =>
    match read v with
    | some a => .ok (some a)
    | none => .error (.invalidType (join parent key) expected v.describe)

def required {α : Type} (expected : String) (read : Value → Option α) (m : Fields)
    (parent key : String) : Except SpecError α := do
  match ← optional expected read m parent key with
  | some a => return a
  | none => throw (.missingField (join parent key))

def asText : Value → Option String
  | .text s => some s
  | _ => none

def asBool : Value → Option Bool
  | .bool b => some b
  | _ => none

def asList : Value → Option (List Value)
  | .list items => some items
  | _ => none

def asMapping : Value → Option Fields
  | .mapping entries => some entries
  | _ => none

def asCount : Value → Option Nat
  | .int n => if 0 ≤ n then some n.toNat else none
  | _ => none

def optionalText := optional "a string" asText

def requiredText := required "a string" asText

def requiredMapping := required "a mapping" asMapping

def expectValue (path allowed : String) (v : Option String) : Except SpecError Unit :=
  match v with
  | none => .ok ()
  | some v => if v = allowed then .ok () else .error (.unknownValue path v allowed)

def expectForm (path : String) (form : List Char → Bool) (what value : String) :
    Except SpecError Unit :=
  if form value.toList then .ok () else .error (.invalidValue path s!"'{value}' is not {what}")

def expectLabel (path value : String) : Except SpecError Unit :=
  expectForm path Name.isLabel "a DNS-1123 label" value

def computeOf (m : Fields) : Except SpecError Compute := do
  let path := "spec.compute"
  let nodes ← required "a non-negative integer" asCount m path "nodes"
  if maxNodes < nodes then
    throw (.invalidValue (join path "nodes") s!"{nodes} exceeds the limit of {maxNodes} nodes")
  let instanceClass ← optionalText m path "instanceType"
  return { nodes := nodes.toUInt64, instanceClass := instanceClass.getD "medium" }

def items {α : Type} (m : Fields) (parent key : String)
    (read : String → String → Except SpecError α) : Except SpecError (List α) := do
  let values ← optional "a list" asList m parent key
  (values.getD []).zipIdx.mapM fun (v, i) ↦
    let path := s!"{join parent key}[{i}]"
    match v.text? with
    | some s => read path s
    | none => .error (.invalidType path "a string" v.describe)

def domainOf (path s : String) : Except SpecError String := do
  let domain := (String.ofList (Text.trim s.toList)).toLower
  expectForm path Name.isDomain "a fully-qualified domain name" domain
  return domain

def networkingOf (m : Fields) : Except SpecError Networking := do
  let path := "spec.networking"
  let name ← requiredText m path "topology"
  match Topology.ofName? name with
  | none =>
    throw (.unknownValue (join path "topology") name
      (", ".intercalate (Topology.all.map Topology.name)))
  | some topology =>
    let domains ← match ← optional "a mapping" asMapping m path "ingress" with
      | some ingress => items ingress (join path "ingress") "domains" domainOf
      | none => pure []
    return { topology, domains }

def storageOf (m : Fields) : Except SpecError Storage := do
  let path := "spec.storage"
  let persistent ← required "a boolean" asBool m path "persistent"
  let performanceClass ← optionalText m path "iopsClass"
  return { persistent, performanceClass := performanceClass.getD "standard" }

def targetOf (path s : String) : Except SpecError Provider :=
  match Provider.ofName s with
  | .ok p => .ok p
  | .error reason => .error (.invalidValue path reason)

def firsts {α : Type} [DecidableEq α] (xs : List α) : List α :=
  (xs.foldl (fun seen x ↦ if x ∈ seen then seen else x :: seen) []).reverse

def ofFields (m : Fields) : Except SpecError WorkloadSpec := do
  expectValue "apiVersion" apiVersion (← optionalText m "" "apiVersion")
  expectValue "kind" documentKind (← optionalText m "" "kind")
  let metadata ← requiredMapping m "" "metadata"
  let name ← requiredText metadata "metadata" "name"
  expectLabel "metadata.name" name
  let space := (← optionalText metadata "metadata" "namespace").getD "default"
  expectLabel "metadata.namespace" space
  let spec ← requiredMapping m "" "spec"
  let compute ← computeOf (← requiredMapping spec "spec" "compute")
  let networking ← networkingOf (← requiredMapping spec "spec" "networking")
  let storage ← storageOf (← requiredMapping spec "spec" "storage")
  let targets ← items spec "spec" "targets" targetOf
  return { name, space, compute, networking, storage, targets := firsts targets }

def ofValue (v : Value) : Except SpecError WorkloadSpec :=
  match v with
  | .mapping m => ofFields m
  | v => .error (.notMapping v.typeName)

def ofBytes (bytes : ByteArray) : Except SpecError WorkloadSpec :=
  match Value.ofBytes? bytes with
  | .ok v => ofValue v
  | .error fault => .error (.notYaml fault)

end WorkloadSpec

end Multicloud
