import Multicloud.Digest.Blake3
import Multicloud.Text.Numeral

namespace Multicloud

/-- A content digest, as the text that stands for the content. What is digested is said without
it, so that statements may take any digest they like. -/
abbrev Digester := ByteArray → String

namespace Digest

def blake3 : Digester := fun data ↦
  "blake3:" ++ String.ofList (Text.hexOfBytes (Blake3.hash data))

def ofText (digest : Digester) (s : String) : String := digest s.toUTF8

def joined (parts : List String) : String := String.join (parts.map (· ++ "\x00"))

def ofParts (digest : Digester) (parts : List String) : String := ofText digest (joined parts)

/-- The first `length` characters after the name of the algorithm. -/
def short (digest : String) (length : Nat) : String :=
  let cs := digest.toList
  let body := if "blake3:".toList.isPrefixOf cs then cs.drop "blake3:".length else cs
  String.ofList (body.take length)

end Digest

end Multicloud
