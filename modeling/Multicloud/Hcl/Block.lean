import Multicloud.Hcl.Value
import Multicloud.Text.Numeral

namespace Multicloud.Hcl

structure Block where
  name : String
  source : String
  version : String
  comment : String
  attributes : List (String × Value)
  dependsOn : List String
  deriving DecidableEq

/-- One assignment a line; the signs stand below each other. The width counts bytes. -/
def aligned (attributes : List (String × Value)) : List String :=
  let width := attributes.foldl (fun w a ↦ max w a.1.utf8ByteSize) 0
  attributes.map fun (k, v) ↦ "  " ++ Text.padEnd width k ++ " = " ++ v.render

namespace Block

def header (b : Block) : List String :=
  ["# " ++ b.comment, "module \"" ++ b.name ++ "\" \x7b"] ++
    aligned [("source", .str b.source), ("version", .str b.version)]

def attributeLines (b : Block) : List String :=
  if b.attributes.isEmpty then [] else "" :: aligned b.attributes

def dependencyLines (b : Block) : List String :=
  if b.dependsOn.isEmpty then []
  else ["", "  depends_on = ["] ++ b.dependsOn.map (fun d ↦ "    module." ++ d ++ ",") ++ ["  ]"]

def lines (b : Block) : List String :=
  b.header ++ b.attributeLines ++ b.dependencyLines ++ ["\x7d"]

def render (b : Block) : String := String.join (b.lines.map (· ++ "\n"))

end Block

end Multicloud.Hcl
