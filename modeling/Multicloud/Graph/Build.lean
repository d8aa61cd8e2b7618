import Multicloud.Graph.Basic
import Multicloud.Workload.Spec

namespace Multicloud

namespace Topology

def upTo (low high : UInt64) : List UInt64 :=
  (List.range' low.toNat (high.toNat - low.toNat)).map UInt64.ofNat

def ringEdge (nodes i : UInt64) : UInt64 × UInt64 :=
  let j := (i + 1) % nodes
  (min i j, max i j)

/-- The links among nodes `0` to `nodes - 1`, smaller end first, in lexicographic order. -/
def edges (topology : Topology) (nodes : UInt64) : Except GraphError (List (UInt64 × UInt64)) :=
  match topology with
  | mesh => .ok ((upTo 0 nodes).flatMap fun a ↦ (upTo (a + 1) nodes).map fun b ↦ (a, b))
  | star => .ok ((upTo 1 nodes).map fun b ↦ (0, b))
  | ring =>
    if nodes < 3 then
      .error (.unsupportedTopology ring.name nodes "a ring needs at least 3 compute nodes")
    else
      let le (e f : UInt64 × UInt64) : Bool := e.1 < f.1 || (e.1 == f.1 && e.2 ≤ f.2)
      .ok (((upTo 0 nodes).map (ringEdge nodes)).mergeSort le)

def ingressPoint : Topology → UInt64
  | mesh | star | ring => 0

end Topology

/-- A dependency on top of those that follow from the specification. -/
structure Override where
  resource : String
  dependsOn : String
  deriving DecidableEq

namespace ResourceGraph

def computeId (i : UInt64) : String := "compute-" ++ Nat.repr i.toNat

def volumeId (i : UInt64) : String := "volume-" ++ Nat.repr i.toNat

def linkId (a b : UInt64) : String := "link-" ++ Nat.repr a.toNat ++ "-" ++ Nat.repr b.toNat

def ingressId (domain : String) : String := "ingress-" ++ domain

def dnsId (domain : String) : String := "dns-" ++ domain

def displayName (workload id : String) : String := workload ++ "-" ++ id

def computeNode (spec : WorkloadSpec) (i : UInt64) : Resource where
  id := computeId i
  kind := .computeNode
  properties := .of
    [("index", .int i), ("name", .text (displayName spec.name (computeId i))),
      ("instance_class", .text spec.compute.instanceClass), ("workload", .text spec.name),
      ("namespace", .text spec.space)]
  dependsOn := ∅

def link (topology : Topology) (a b : UInt64) : Resource where
  id := linkId a b
  kind := .networkLink
  properties := .of
    [("from", .text (computeId a)), ("to", .text (computeId b)), ("topology", .text topology.name)]
  dependsOn := .of [computeId a, computeId b]

def route (spec : WorkloadSpec) (waitsFor : TextSet) (domain : String) : Resource where
  id := ingressId domain
  kind := .ingressRoute
  properties := .of
    [("domain", .text domain), ("name", .text (displayName spec.name (ingressId domain))),
      ("backend", .text (computeId spec.networking.topology.ingressPoint))]
  dependsOn := waitsFor

def record (domain : String) : Resource where
  id := dnsId domain
  kind := .dnsRecord
  properties := .of
    [("domain", .text domain), ("route", .text (ingressId domain)), ("record_type", .text "CNAME")]
  dependsOn := .of [ingressId domain]

def volume (spec : WorkloadSpec) (i : UInt64) : Resource where
  id := volumeId i
  kind := .volume
  properties := .of
    [("index", .int i), ("name", .text (displayName spec.name (volumeId i))),
      ("attached_to", .text (computeId i)),
      ("performance_class", .text spec.storage.performanceClass)]
  dependsOn := .of [computeId i]

def ingressDependencies (topology : Topology) (edges : List (UInt64 × UInt64)) : TextSet :=
  let p := topology.ingressPoint
  let links := edges.filterMap fun (a, b) ↦ if a == p || b == p then some (linkId a b) else none
  .of (computeId p :: links)

/-- The first domain that was listed before, in whatever case. -/
def repeatedDomain? : TextSet → List String → Option String
  | _, [] => none
  | seen, d :: rest =>
    if seen.contains d.toLower then some d else repeatedDomain? (seen.insert d.toLower) rest

def resourcesOf (spec : WorkloadSpec) (edges : List (UInt64 × UInt64)) : List Resource :=
  let topology := spec.networking.topology
  let nodes := Topology.upTo 0 spec.compute.nodes
  let waitsFor := ingressDependencies topology edges
  nodes.map (computeNode spec) ++ edges.map (fun (a, b) ↦ link topology a b) ++
    spec.networking.domains.flatMap (fun d ↦ [route spec waitsFor d, record d]) ++
    if spec.storage.persistent then nodes.map (volume spec) else []

def addDependency (o : Override) : List Resource → Option (List Resource)
  | [] => none
  | r :: rest =>
    if r.id == o.resource then some ({ r with dependsOn := r.dependsOn.insert o.dependsOn } :: rest)
    else (addDependency o rest).map (r :: ·)

def addDependencies (rs : List Resource) (overrides : List Override) :
    Except GraphError (List Resource) :=
  overrides.foldlM (fun rs o ↦
    match addDependency o rs with
    | some rs => .ok rs
    | none => .error (.unknownOverrideTarget o.resource)) rs

def buildWith (spec : WorkloadSpec) (overrides : List Override) :
    Except GraphError ResourceGraph := do
  if spec.compute.nodes = 0 then
    throw .emptyCompute
  if let some d := repeatedDomain? ∅ spec.networking.domains then
    throw (.duplicateDomain d)
  let edges ← spec.networking.topology.edges spec.compute.nodes
  let resources ← addDependencies (resourcesOf spec edges) overrides
  ofResources spec.qualifiedName resources

def build (spec : WorkloadSpec) : Except GraphError ResourceGraph := buildWith spec []

end ResourceGraph

end Multicloud
