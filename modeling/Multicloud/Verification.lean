import Multicloud.Graph.Basic
import Multicloud.Name.Provider

namespace Multicloud

inductive Check where
  | runningCount
  | attachedCount
  | reachability
  | propagation
  deriving DecidableEq, Repr

namespace Check

def name : Check → String
  | runningCount => "running_count"
  | attachedCount => "attached_count"
  | reachability => "reachability"
  | propagation => "propagation"

def display : Check → String
  | runningCount => "running-count"
  | attachedCount => "attached-count"
  | reachability => "reachability"
  | propagation => "propagation"

end Check

structure Assertion where
  kind : Kind
  check : Check
  expectedCount : Nat
  expectedState : String
  endpoint : Option String
  resources : List String
  deriving DecidableEq

namespace Assertion

def counted (placed : List (Resource × Nat)) (k : Kind) (check : Check) (state : String) :
    List (Nat × Assertion) :=
  match placed.filter fun r ↦ r.1.kind == k with
  | [] => []
  | (r, first) :: rest =>
    let members := ((r, first) :: rest).map fun r ↦ r.1.id
    [(first,
      { kind := k, check, expectedCount := members.length, expectedState := state, endpoint := none
        resources := members })]

def single (r : Resource) (check : Check) (state : String) : Assertion where
  kind := r.kind
  check := check
  expectedCount := 1
  expectedState := state
  endpoint := r.properties["domain"]?.bind Property.text?
  resources := [r.id]

def ofResource? (r : Resource) : Option Assertion :=
  match r.kind with
  | .ingressRoute => some (single r .reachability "reachable")
  | .dnsRecord => some (single r .propagation "propagated")
  | .computeNode | .volume | .networkLink => none

end Assertion

namespace ResourceGraph

def verificationPlan (g : ResourceGraph) : List Assertion :=
  let placed := g.resources.zipIdx
  let own := placed.filterMap fun (r, i) ↦ (Assertion.ofResource? r).map fun a ↦ (i, a)
  let all := Assertion.counted placed .computeNode .runningCount "running" ++
    Assertion.counted placed .volume .attachedCount "attached" ++ own
  (all.mergeSort fun a b ↦ a.1 ≤ b.1).map Prod.snd

end ResourceGraph

def boundAssertions (plan : List Assertion) (targets : List Provider) :
    List (Provider × Assertion) :=
  targets.flatMap fun p ↦ plan.map fun a ↦ (p, a)

end Multicloud
