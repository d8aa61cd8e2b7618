import Multicloud.Name.Label

namespace Multicloud

namespace Name

def isProvider : List Char → Bool
  | [] => false
  | c :: rest => ('a' ≤ c && c ≤ 'z') && decide (rest.length ≤ 31) && rest.all isLabelChar

end Name

/-- The name of a target provider. Any provider with a rule set is a target. -/
structure Provider where
  name : String
  valid : Name.isProvider name.toList = true
  deriving DecidableEq

namespace Provider

def ofName? (name : String) : Option Provider :=
  if h : Name.isProvider name.toList = true then some ⟨name, h⟩ else none

def refusal (name : String) : String :=
  s!"invalid provider id '{name}' (expected lowercase letters, digits, '-')"

def ofName (name : String) : Except String Provider :=
  match ofName? name with
  | some p => .ok p
  | none => .error (refusal name)

instance : Ord Provider := ⟨fun p q ↦ compare p.name q.name⟩

instance : Std.TransOrd Provider where
  eq_swap := Std.OrientedOrd.eq_swap (α := String)
  isLE_trans := Std.TransOrd.isLE_trans (α := String)

instance : Std.LawfulEqOrd Provider where
  eq_of_compare {p q} h := by
    have : p.name = q.name := Std.LawfulEqOrd.eq_of_compare h
    cases p; cases q; cases this; rfl

end Provider

end Multicloud
