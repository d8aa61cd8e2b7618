import Multicloud.Resource

namespace Multicloud.Hcl

/-- A value in a module block. An expression is written as it is. -/
inductive Value where
  | str (text : String)
  | int (value : UInt64)
  | bool (value : Bool)
  | list (items : List String)
  | expr (text : String)
  deriving DecidableEq

/-- The inside of a literal. A brace would open a template after a dollar or a percent sign, so
these are doubled there. -/
def escape : List Char → List Char
  | [] => []
  | '\\' :: rest => '\\' :: '\\' :: escape rest
  | '"' :: rest => '\\' :: '"' :: escape rest
  | '$' :: '\x7b' :: rest => '$' :: '$' :: '\x7b' :: escape rest
  | '%' :: '\x7b' :: rest => '%' :: '%' :: '\x7b' :: escape rest
  | c :: rest => c :: escape rest

def quote (s : String) : String := String.ofList ('"' :: escape s.toList ++ ['"'])

namespace Value

def render : Value → String
  | str s => quote s
  | int n => Nat.repr n.toNat
  | bool true => "true"
  | bool false => "false"
  | list items => "[" ++ ", ".intercalate (items.map quote) ++ "]"
  | expr e => e

def ofProperty : Property → Value
  | .bool b => bool b
  | .int n => int n
  | .text s => str s
  | .list items => list items

end Value

def moduleOutput (target output : String) : String := "module." ++ target ++ "." ++ output

end Multicloud.Hcl
