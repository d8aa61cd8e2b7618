import Multicloud.Json.Record
import Multicloud.Json.Written
import Multicloud.Run.Outcome

namespace Multicloud

open Json (Value)

namespace Provider

def ofJson? (v : Value) : Option Provider := v.text?.bind ofName?

end Provider

namespace Kind

/-- A kind is its name, or an object of one entry with that name and null. -/
def ofJson? (v : Value) : Option Kind :=
  match v with
  | .object [(k, .null)] => (Json.unescape k).bind fun k ↦ ofName? (String.ofList k)
  | v => v.text?.bind ofName?

end Kind

namespace Artifact

def toJson (a : Artifact) : Value :=
  .record
    [("provider", .ofText a.provider.name), ("artifact_kind", .ofText a.artifactKind),
      ("logical_id", .ofText a.logicalId), ("logical_kind", .ofText a.logicalKind.name),
      ("target_id", .ofText a.targetId), ("file_name", .ofText a.fileName),
      ("body", .ofText a.body), ("depends_on", .ofTexts a.dependsOn)]

def ofJson? (v : Value) : Option Artifact := do
  let fields ← v.fields?
    ["provider", "artifact_kind", "logical_id", "logical_kind", "target_id", "file_name", "body",
      "depends_on"]
  return {
    provider := ← fields.get? "provider" Provider.ofJson?
    artifactKind := ← fields.get? "artifact_kind" Value.text?
    logicalId := ← fields.get? "logical_id" Value.text?
    logicalKind := ← fields.get? "logical_kind" Kind.ofJson?
    targetId := ← fields.get? "target_id" Value.text?
    fileName := ← fields.get? "file_name" Value.text?
    body := ← fields.get? "body" Value.text?
    dependsOn := ← fields.get? "depends_on" (Value.list? Value.text?) }

end Artifact

namespace Composition

def toJson (c : Composition) : Value :=
  .record
    [("file_name", .ofText c.fileName), ("body", .ofText c.body),
      ("logical_ids", .ofTexts c.logicalIds),
      ("providers", .ofTexts (c.providers.map Provider.name))]

def ofJson? (v : Value) : Option Composition := do
  let fields ← v.fields? ["file_name", "body", "logical_ids", "providers"]
  return {
    fileName := ← fields.get? "file_name" Value.text?
    body := ← fields.get? "body" Value.text?
    logicalIds := ← fields.get? "logical_ids" (Value.list? Value.text?)
    providers := ← fields.get? "providers" (Value.list? Provider.ofJson?) }

end Composition

namespace StoredRun

def toJson (run : StoredRun) : Value :=
  .record
    [("artifacts",
        .record (run.artifacts.toList.map fun (p, as) ↦ (p.name, .list (as.map Artifact.toJson)))),
      ("composition", (run.composition.map Composition.toJson).getD .null)]

def ofJson? (v : Value) : Option StoredRun := do
  let fields ← v.fields? ["artifacts", "composition"]
  return {
    artifacts := ← fields.get? "artifacts"
      (Value.map? Provider.ofName? (Value.list? Artifact.ofJson?))
    composition := ← ((fields.lookup "composition").getD .null).option? Composition.ofJson? }

def text (run : StoredRun) : String := run.toJson.line

def ofText? (s : String) : Option StoredRun := (Value.ofText? s.toList).bind ofJson?

end StoredRun

end Multicloud
