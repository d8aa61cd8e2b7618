namespace Multicloud

inductive GraphError where
  | emptyCompute
  | duplicateDomain (domain : String)
  | unsupportedTopology (topology : String) (nodes : UInt64) (reason : String)
  | duplicateIdentifier (id : String)
  | danglingDependency (resource dependency : String)
  | unknownOverrideTarget (resource : String)
  | cyclicDependency (members : List String)
  deriving DecidableEq

namespace GraphError

def message : GraphError → String
  | emptyCompute => "workload requests zero compute nodes"
  | duplicateDomain d => s!"ingress domain '{d}' is listed more than once"
  | unsupportedTopology t n reason =>
    s!"topology '{t}' is not supported for {n.toNat} node(s): {reason}"
  | duplicateIdentifier id => s!"resource identifier '{id}' is defined more than once"
  | danglingDependency r d => s!"resource '{r}' depends on unknown resource '{d}'"
  | unknownOverrideTarget r => s!"dependency override names unknown resource '{r}'"
  | cyclicDependency members =>
    "dependency cycle detected involving: " ++ ", ".intercalate members

end GraphError

end Multicloud
