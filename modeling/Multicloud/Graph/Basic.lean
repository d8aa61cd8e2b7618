import Multicloud.Graph.Error
import Multicloud.Graph.Order
import Multicloud.Digest

namespace Multicloud

/-- The resources of a workload, each after all it depends on. -/
structure ResourceGraph where
  workload : String
  resources : List Resource
  deriving DecidableEq

namespace ResourceGraph

def index (rs : List Resource) : Except GraphError ResourceMap :=
  rs.foldlM (fun m r ↦
    if m.contains r.id then .error (.duplicateIdentifier r.id) else .ok (m.insert r.id r)) ∅

/-- The least resource with a dependency that no resource has, and the least such dependency. -/
def dangling? (rs : ResourceMap) : Option (String × String) :=
  rs.toList.findSome? fun (id, r) ↦
    (r.dependsOn.toList.find? fun dep ↦ !rs.contains dep).map fun dep ↦ (id, dep)

/-- Accepts a set of resources whose ids are distinct and whose dependencies resolve without a
cycle. -/
def ofResources (workload : String) (rs : List Resource) : Except GraphError ResourceGraph := do
  let byId ← index rs
  if let some (id, dep) := dangling? byId then
    throw (.danglingDependency id dep)
  let order := byId.sweep.order
  if order.length ≠ byId.size then
    throw (.cyclicDependency byId.cycleMembers)
  return { workload, resources := order.filterMap fun id ↦ byId[id]? }

def name (g : ResourceGraph) : String :=
  match g.workload.toList.dropWhile (· ≠ '/') with
  | [] => g.workload
  | _ :: rest => String.ofList rest

def ids (g : ResourceGraph) : List String := g.resources.map Resource.id

def get? (g : ResourceGraph) (id : String) : Option Resource :=
  g.resources.find? fun r ↦ r.id == id

def position? (g : ResourceGraph) (id : String) : Option Nat :=
  g.resources.findIdx? fun r ↦ r.id == id

def size (g : ResourceGraph) : Nat := g.resources.length

def count (g : ResourceGraph) (k : Kind) : Nat := g.resources.countP fun r ↦ r.kind == k

end ResourceGraph

namespace Resource

def encoded (r : Resource) : String :=
  let properties := r.properties.toList.map fun (k, v) ↦ k ++ "=" ++ v.display
  "|".intercalate
    [r.id, r.kind.name, ";".intercalate properties, ",".intercalate r.dependsOn.toList]

end Resource

namespace ResourceGraph

def encoded (g : ResourceGraph) : List String :=
  ("workload=" ++ g.workload) :: g.resources.map Resource.encoded

def hash (digest : Digester) (g : ResourceGraph) : String := Digest.ofParts digest g.encoded

end ResourceGraph

end Multicloud
