import Multicloud.Artifact.Basic
import Multicloud.Graph.Basic
import Multicloud.Yaml.Written

namespace Multicloud

/-- A document over all providers of a workload: for each resource, the file and the module that
stand for it on each of them. -/
structure Composition where
  fileName : String
  body : String
  logicalIds : List String
  providers : List Provider
  deriving DecidableEq

namespace Composition

open Yaml (Written)

def standardName : String := "composition.yaml"

def crossplaneApi : String := "apiextensions.crossplane.io/v1"

def workloadApi : String := "infrastructure.nebulaforge.io/v1"

/-- Of two artifacts for one resource the later counts. -/
def artifactOf? (artifacts : List Artifact) (id : String) : Option Artifact :=
  artifacts.reverse.find? fun a ↦ a.logicalId == id

def artifactsOf (artifacts : ArtifactMap) (id : String) : List Artifact :=
  artifacts.values.filterMap fun list ↦ artifactOf? list id

def binding (workload : String) (a : Artifact) : Written :=
  .mapping
    [("provider", .text a.provider.name), ("artifact", .text a.artifactKind),
      ("file", .text (Artifact.treeName a.provider workload ++ "/" ++ a.fileName)),
      ("reference", .text ("module." ++ a.targetId))]

def resource (workload : String) (artifacts : ArtifactMap) (r : Resource) : Written :=
  let dependsOn := r.dependsOn.toList.map Written.text
  let providers := (artifactsOf artifacts r.id).map (binding workload)
  .mapping
    [("name", .text r.id),
      ("base", .mapping
        [("apiVersion", .text workloadApi), ("kind", .text "LogicalResource"),
          ("spec", .mapping
            ([("logicalKind", .text r.kind.name)] ++
              (if dependsOn.isEmpty then [] else [("dependsOn", .list dependsOn)]) ++
              [("providers", .list providers)]))])]

def document (g : ResourceGraph) (graphHash : String) (artifacts : ArtifactMap) : Written :=
  let name := g.workload.map fun c ↦ if c = '/' then '-' else c
  .mapping
    [("apiVersion", .text crossplaneApi), ("kind", .text "Composition"),
      ("metadata", .mapping
        [("name", .text (name ++ "-hybrid")),
          ("labels", .mapping
            [("nebulaforge.io/graph-hash", .text (Digest.short graphHash 16)),
              ("nebulaforge.io/workload", .text g.name)])]),
      ("spec", .mapping
        [("compositeTypeRef", .mapping
            [("apiVersion", .text workloadApi), ("kind", .text "XWorkloadCluster")]),
          ("resources", .list (g.resources.map (resource g.name artifacts)))])]

def compose (g : ResourceGraph) (graphHash : String) (artifacts : ArtifactMap) : Composition where
  fileName := standardName
  body := (document g graphHash artifacts).render
  logicalIds := g.ids
  providers := artifacts.keys

end Composition

end Multicloud
