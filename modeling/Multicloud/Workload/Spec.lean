import Multicloud.Name.Provider

namespace Multicloud

inductive Topology where
  | mesh
  | star
  | ring
  deriving DecidableEq, Repr

namespace Topology

def all : List Topology := [mesh, star, ring]

def name : Topology → String
  | mesh => "mesh"
  | star => "star"
  | ring => "ring"

def ofName? (s : String) : Option Topology := all.find? fun t ↦ t.name == s

end Topology

structure Compute where
  nodes : UInt64
  instanceClass : String
  deriving DecidableEq

structure Networking where
  topology : Topology
  domains : List String
  deriving DecidableEq

structure Storage where
  persistent : Bool
  performanceClass : String
  deriving DecidableEq

structure WorkloadSpec where
  name : String
  space : String
  compute : Compute
  networking : Networking
  storage : Storage
  targets : List Provider
  deriving DecidableEq

namespace WorkloadSpec

def qualifiedName (s : WorkloadSpec) : String := s.space ++ "/" ++ s.name

end WorkloadSpec

end Multicloud
