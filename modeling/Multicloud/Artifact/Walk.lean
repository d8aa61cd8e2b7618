import Multicloud.Artifact.Basic
import Multicloud.Graph.Basic
import Multicloud.Hcl.Block
import Multicloud.Registry

namespace Multicloud

/-- What a walk through a graph has come to. -/
structure Walk where
  emitted : TextMap String := ∅
  owners : TextMap String := ∅
  /-- Latest first. -/
  artifacts : List Artifact := []
  deriving DecidableEq

namespace Walk

def dependencies (r : Resource) (emitted : TextMap String) : Except MappingError (List String) :=
  r.dependsOn.toList.mapM fun dep ↦
    match emitted[dep]? with
    | some target => .ok target
    | none => .error (.unresolvedReference r.id dep)

def comment (set : RuleSet) (rule : Rule) (r : Resource) : String :=
  s!"{r.id} ({r.kind.name}) -> {rule.artifact} [{set.provider.name} {set.version.text}]"

def block (set : RuleSet) (rule : Rule) (r : Resource) (attributes : List (String × Hcl.Value))
    (dependsOn : List String) : Hcl.Block where
  name := set.identifier r.id
  source := rule.moduleSource
  version := rule.moduleVersion
  comment := comment set rule r
  attributes := attributes
  dependsOn := dependsOn

def artifact (set : RuleSet) (rule : Rule) (r : Resource) (attributes : List (String × Hcl.Value))
    (dependsOn : List String) : Artifact where
  provider := set.provider
  artifactKind := rule.artifact
  logicalId := r.id
  logicalKind := r.kind
  targetId := set.identifier r.id
  fileName := set.identifier r.id ++ ".tf"
  body := (block set rule r attributes dependsOn).render
  dependsOn := dependsOn

def visit (set : RuleSet) (w : Walk) (r : Resource) : Except MappingError Walk := do
  let some rule := set.rule? r.kind | throw (.noRuleForKind r.kind set.provider)
  let target := set.identifier r.id
  if let some first := w.owners[target]? then
    throw (.identifierCollision set.provider target first r.id)
  let dependsOn ← dependencies r w.emitted
  let attributes ← rule.convert r w.emitted
  return { emitted := w.emitted.insert r.id target, owners := w.owners.insert target r.id
           artifacts := artifact set rule r attributes dependsOn :: w.artifacts }

def failure (p : Provider) (r : Option Resource) (e : MappingError) : TargetFailure :=
  { provider := p, resource := r.map Resource.id, kind := r.map Resource.kind, error := e }

def steps (p : Provider) (set : RuleSet) : Walk → List Resource → Except TargetFailure Walk
  | w, [] => .ok w
  | w, r :: rest =>
    match w.visit set r with
    | .ok w => w.steps p set rest
    | .error e => .error (failure p (some r) e)

end Walk

def walkTarget (g : ResourceGraph) (registry : Registry) (p : Provider) (v : Version) :
    Except TargetFailure (List Artifact) :=
  match registry.ruleSet p v with
  | .error e => .error (Walk.failure p none e)
  | .ok set => (Walk.steps p set {} g.resources).map fun w ↦ w.artifacts.reverse

namespace TargetFailure

def message (f : TargetFailure) : String :=
  match f.resource, f.kind with
  | some id, some kind => s!"{f.provider.name}: {id} ({kind.name}): {f.error.message}"
  | some id, none => s!"{f.provider.name}: {id}: {f.error.message}"
  | none, _ => s!"{f.provider.name}: {f.error.message}"

end TargetFailure

end Multicloud
