namespace Multicloud.Name

def isIdentifierChar (c : Char) : Bool :=
  ('a' ≤ c && c ≤ 'z') || ('0' ≤ c && c ≤ '9') || c = '_'

/-- What may stand in front of every identifier of a provider: nothing, or an identifier. -/
def isIdentifierStart : List Char → Bool
  | [] => true
  | c :: rest => (('a' ≤ c && c ≤ 'z') || c = '_') && rest.all isIdentifierChar

def identifierChar (c : Char) : Char :=
  let c := c.toLower
  if isIdentifierChar c then c else '_'

def identifier (start id : String) : String :=
  start ++ String.ofList (id.toList.map identifierChar)

end Multicloud.Name
