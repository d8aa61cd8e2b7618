import Multicloud.Name.Label
import Multicloud.Text.Numeral

namespace Multicloud

namespace Name

def segments? (s : List Char) : Option (List Nat) := (splitAt '.' s).mapM Text.readWord

end Name

/-- The version of a rule set. The text is kept: `1.0` and `1.00` are two versions. -/
structure Version where
  text : String
  segments : List Nat
  read : Name.segments? text.toList = some segments
  deriving DecidableEq

namespace Version

def ofText? (text : String) : Option Version :=
  match h : Name.segments? text.toList with
  | some segments => some ⟨text, segments, h⟩
  | none => none

def refusal (text : String) : String := s!"invalid rule version '{text}'"

def ofText (text : String) : Except String Version :=
  match ofText? text with
  | some v => .ok v
  | none => .error (refusal text)

/-- Segment by segment, and by text among equal segments. -/
instance : Ord Version :=
  ⟨fun v w ↦ (compare v.segments w.segments).then (compare v.text w.text)⟩

instance : Std.TransOrd Version :=
  inferInstanceAs (Std.TransCmp (compareLex (compareOn Version.segments) (compareOn Version.text)))

instance : Std.LawfulEqOrd Version where
  eq_of_compare {v w} h := by
    have h : (compare v.segments w.segments).then (compare v.text w.text) = .eq := h
    rw [Ordering.then_eq_eq] at h
    have hs := Std.LawfulEqOrd.eq_of_compare h.1
    have ht := Std.LawfulEqOrd.eq_of_compare h.2
    cases v; cases w; cases hs; cases ht; rfl

end Version

end Multicloud
