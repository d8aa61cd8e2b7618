import Multicloud.Digest
import Multicloud.Name.Provider
import Multicloud.Name.Version
import Std.Data.ExtTreeMap.Lemmas

namespace Multicloud

abbrev Binding := Std.ExtTreeMap Provider Version

namespace Binding

def of (entries : List (Provider × Version)) : Binding := .ofList entries compare

def encoded (b : Binding) : List String := b.toList.map fun (p, v) ↦ p.name ++ "@" ++ v.text

/-- What a run is kept under: it is determined by its graph and its versions. -/
def key (digest : Digester) (graphHash : String) (b : Binding) : String :=
  Digest.ofParts digest (graphHash :: b.encoded)

end Binding

end Multicloud
