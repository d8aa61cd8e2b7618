namespace Multicloud.Name

def isLabelChar (c : Char) : Bool := ('a' ≤ c && c ≤ 'z') || ('0' ≤ c && c ≤ '9') || c = '-'

/-- A DNS-1123 label: at most 63 lower-case letters, digits and hyphens, no hyphen at either
end. -/
def isLabel (s : List Char) : Bool :=
  !s.isEmpty && decide (s.length ≤ 63) && s.all isLabelChar && s.head? != some '-' &&
    s.getLast? != some '-'

def isTopLevel (s : List Char) : Bool :=
  decide (2 ≤ s.length) && decide (s.length ≤ 63) && s.all fun c ↦ 'a' ≤ c && c ≤ 'z'

def splitAt (sep : Char) : List Char → List (List Char)
  | [] => [[]]
  | c :: rest =>
    if c = sep then [] :: splitAt sep rest
    else match splitAt sep rest with
      | [] => [[c]]
      | part :: parts => (c :: part) :: parts

/-- A fully-qualified domain name: labels and a top-level domain, at least two parts in all, after
an asterisk at most. -/
def isDomain (s : List Char) : Bool :=
  let parts := match splitAt '.' s with
    | ['*'] :: parts => parts
    | parts => parts
  match parts.getLast? with
  | none => false
  | some top => decide (2 ≤ parts.length) && parts.dropLast.all isLabel && isTopLevel top

end Multicloud.Name
