import Std.Data.ExtTreeMap.Lemmas
import Std.Data.ExtTreeSet.Lemmas

namespace Multicloud

inductive Kind where
  | computeNode
  | networkLink
  | ingressRoute
  | volume
  | dnsRecord
  deriving DecidableEq, Repr

namespace Kind

def all : List Kind := [computeNode, networkLink, ingressRoute, volume, dnsRecord]

theorem mem_all (k : Kind) : k ∈ all := by cases k <;> decide

def name : Kind → String
  | computeNode => "compute_node"
  | networkLink => "network_link"
  | ingressRoute => "ingress_route"
  | volume => "volume"
  | dnsRecord => "dns_record"

def ofName? (s : String) : Option Kind := all.find? fun k ↦ k.name == s

theorem ofName?_name (k : Kind) : ofName? k.name = some k := by cases k <;> decide

end Kind

inductive Property where
  | bool (value : Bool)
  | int (value : UInt64)
  | text (value : String)
  | list (items : List String)
  deriving DecidableEq

namespace Property

/-- The text of a value in digests, look-ups and references; the type does not show in it. -/
def display : Property → String
  | bool true => "true"
  | bool false => "false"
  | int n => Nat.repr n.toNat
  | text s => s
  | list items => "[" ++ ",".intercalate items ++ "]"

def text? : Property → Option String
  | text s => some s
  | _ => none

end Property

/-- Ordered maps and sets over texts: two are equal when they hold the same, and they are listed by
code point, which is the order of their bytes. -/
abbrev TextMap (β : Type) := Std.ExtTreeMap String β compare

abbrev TextSet := Std.ExtTreeSet String compare

def TextSet.of (items : List String) : TextSet := .ofList items compare

abbrev Properties := TextMap Property

/-- Of two values for one name the later counts. -/
def Properties.of (entries : List (String × Property)) : Properties := .ofList entries compare

/-- A node of the resource graph, not yet tied to a provider. -/
structure Resource where
  id : String
  kind : Kind
  properties : Properties
  dependsOn : TextSet
  deriving DecidableEq

end Multicloud
