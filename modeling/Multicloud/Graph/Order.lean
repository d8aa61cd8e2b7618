import Multicloud.Resource

namespace Multicloud

abbrev ResourceMap := TextMap Resource

namespace ResourceMap

def users (rs : ResourceMap) : TextMap (List String) :=
  rs.foldl (fun m id r ↦ r.dependsOn.foldl (fun m dep ↦ m.insert dep (id :: m.getD dep [])) m) ∅

end ResourceMap

/-- The state of a sweep that releases resources once all they depend on is released. -/
structure Sweep where
  /-- Latest first. -/
  released : List String
  ready : TextSet
  /-- How many dependencies of each resource are not released yet. -/
  waiting : TextMap Nat
  deriving DecidableEq

namespace Sweep

def start (rs : ResourceMap) : Sweep where
  released := []
  ready := rs.foldl (fun s id r ↦ if r.dependsOn.isEmpty then s.insert id else s) ∅
  waiting := rs.map fun _ r ↦ r.dependsOn.size

def relieve (s : Sweep) (id : String) : Sweep :=
  match s.waiting[id]? with
  | none => s
  | some n =>
    let waiting := s.waiting.insert id (n - 1)
    if n - 1 = 0 then { s with waiting, ready := s.ready.insert id } else { s with waiting }

def step? (users : TextMap (List String)) (s : Sweep) : Option Sweep :=
  s.ready.min?.map fun id ↦
    (users.getD id []).foldl relieve
      { s with released := id :: s.released, ready := s.ready.erase id }

def run (users : TextMap (List String)) : Nat → Sweep → Sweep
  | 0, s => s
  | n + 1, s =>
    match s.step? users with
    | none => s
    | some s => run users n s

def order (s : Sweep) : List String := s.released.reverse

def blocked (s : Sweep) : TextSet :=
  s.waiting.foldl (fun b id n ↦ if 0 < n then b.insert id else b) ∅

end Sweep

namespace ResourceMap

def sweep (rs : ResourceMap) : Sweep := (Sweep.start rs).run rs.users rs.size

/-- Whether a search from the stack through blocked resources meets `target`. -/
def meets (users : TextMap (List String)) (blocked : TextSet) (target : String) :
    Nat → List String → TextSet → Bool
  | 0, _, _ => false
  | _ + 1, [], _ => false
  | n + 1, id :: stack, seen =>
    let next := users.getD id []
    if next.contains target then true
    else
      let fresh := next.foldl
        (fun (acc : List String × TextSet) id ↦
          if blocked.contains id && !acc.2.contains id then (id :: acc.1, acc.2.insert id) else acc)
        (stack, seen)
      meets users blocked target n fresh.1 fresh.2

def onCycle (users : TextMap (List String)) (blocked : TextSet) (id : String) : Bool :=
  meets users blocked id (blocked.size + 1) [id] ∅

def cycleMembers (rs : ResourceMap) : List String :=
  let users := rs.users
  let blocked := rs.sweep.blocked
  blocked.toList.filter (onCycle users blocked)

end ResourceMap

end Multicloud
