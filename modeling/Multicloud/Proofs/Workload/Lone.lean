import Multicloud.Graph.Build
import Multicloud.Proofs.Fallible
import Multicloud.Proofs.Yaml.Reading
import Multicloud.Workload.Document
import Std.Data.TreeMap.Iterator

namespace Multicloud

namespace Pipeline

def loneDocument : ByteArray :=
  "metadata: {name: w}
spec:
  compute: {nodes: 1, instanceType: small}
  networking: {topology: star}
  storage: {persistent: false}
".toUTF8

def lone : WorkloadSpec where
  name := "w"
  space := "default"
  compute := ⟨1, "small"⟩
  networking := ⟨.star, []⟩
  storage := ⟨false, "standard"⟩
  targets := []

def loneGraph : ResourceGraph := ⟨"default/w", [ResourceGraph.computeNode lone 0]⟩

set_option maxRecDepth 1000 in
theorem ofBytes_loneDocument : WorkloadSpec.ofBytes loneDocument = .ok lone := by
  have htext : Yaml.Document.ofBytes? loneDocument = Yaml.Document.ofText? _ :=
    Yaml.Document.ofBytes?_ofList _
  rw [← toOption_eq_some, WorkloadSpec.ofBytes, Yaml.Value.ofBytes?, htext]
  decide +kernel

theorem build_lone : ResourceGraph.build lone = .ok loneGraph := by cbv

end Pipeline

end Multicloud
