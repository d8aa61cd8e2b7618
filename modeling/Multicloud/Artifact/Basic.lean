import Multicloud.Digest
import Multicloud.Name.Provider
import Multicloud.Resource

namespace Multicloud

/-- What one resource became on one provider: a file with a module block. -/
structure Artifact where
  provider : Provider
  artifactKind : String
  logicalId : String
  logicalKind : Kind
  targetId : String
  fileName : String
  body : String
  /-- Target identifiers, in the order of the logical ids they stand for. -/
  dependsOn : List String
  deriving DecidableEq

namespace Artifact

def encoded (digest : Digester) (a : Artifact) : String :=
  a.fileName ++ "=" ++ Digest.ofText digest a.body

def treeDigest (digest : Digester) (artifacts : List Artifact) : String :=
  Digest.ofParts digest (artifacts.map (encoded digest))

def treeName (p : Provider) (workload : String) : String := p.name ++ "_" ++ workload

end Artifact

abbrev ArtifactMap := Std.ExtTreeMap Provider (List Artifact)

end Multicloud
