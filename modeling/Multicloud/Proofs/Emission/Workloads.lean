import Multicloud.Proofs.Emission.Outcome
import Multicloud.Proofs.Graph.Built
import Multicloud.Proofs.Run.Noninterference
import Multicloud.Proofs.Workload.Document

namespace Multicloud

theorem ResourceGraph.name_of_build_eq_ok {spec : WorkloadSpec} {g : ResourceGraph}
    (hv : spec.Valid) (hb : build spec = .ok g) : g.name = spec.name := by
  have hspace : ∀ c ∈ spec.space.toList, c ≠ '/' := by
    rintro c hc rfl
    exact Text.clean_of_isLabel hv.space '/' (by decide) hc
  have hdrop : (spec.qualifiedName.toList.dropWhile (· ≠ '/')) = '/' :: spec.name.toList := by
    rw [WorkloadSpec.qualifiedName, String.toList_append, String.toList_append, List.append_assoc,
      List.dropWhile_append_of_pos (by simpa using hspace)]
    rfl
  rw [name, (of_build_eq_ok hb).2.1, hdrop]
  exact String.ofList_toList

namespace Emission

open Script
open Pipeline (Synthesized)

section Others

variable {document : ByteArray} {spec spec' : WorkloadSpec} {g g' : ResourceGraph}
  {o o' : Outcome} {out : Path} {root root₁ root₂ : Tree} {t : Provider}

theorem slash_not_mem_name (hd : WorkloadSpec.ofBytes document = .ok spec)
    (hb : ResourceGraph.build spec = .ok g) : '/' ∉ g.name.toList := by
  have hv := WorkloadSpec.valid_of_ofBytes hd
  rw [ResourceGraph.name_of_build_eq_ok hv hb]
  exact Text.clean_of_isLabel hv.name '/' (by decide)

/-- The trees of a workload stay as they are while the outcome for another document is written
beside them, whatever fails then. Only those of a workload with the same name and the same target
are in its way, for a namespace does not show in the name of a tree. -/
theorem trees_of_other_workload {document' : ByteArray}
    (hd : WorkloadSpec.ofBytes document = .ok spec) (hb : ResourceGraph.build spec = .ok g)
    (hd' : WorkloadSpec.ofBytes document' = .ok spec') (hb' : ResourceGraph.build spec' = .ok g')
    (ho : Synthesized g o) (ho' : Synthesized g' o') {ps : List Path}
    (h : Leads (writeOutcome out g.name o).run root (.ok ps) root₁)
    {s : Script (Except EmitError (List Path))}
    (h' : Reaches (writeOutcome out g'.name o').run root₁ s root₂) (ht : t ∈ o.artifacts)
    (hother : ¬ (spec'.name = spec.name ∧ t ∈ o'.artifacts)) :
    root₂.get? (treePlace out g.name t) = root₁.get? (treePlace out g.name t) := by
  obtain ⟨artifacts, ha⟩ : ∃ artifacts, o.artifacts[t]? = some artifacts := by
    rwa [Std.ExtTreeMap.mem_iff_isSome_getElem?, Option.isSome_iff_exists] at ht
  have hwritten := (written_of_writeOutcome (slash_not_mem_name hd hb) ho.plain h).1 t artifacts ha
  refine hwritten.get?_of_reaches
    (onlyOr_writeOutcome out (slash_not_mem_name hd' hb') ho'.plain) (apart_allPlaces ?_) h'
  rw [ResourceGraph.name_of_build_eq_ok (WorkloadSpec.valid_of_ofBytes hd) hb,
    ResourceGraph.name_of_build_eq_ok (WorkloadSpec.valid_of_ofBytes hd') hb',
    Std.ExtTreeMap.mem_keys]
  exact hother

end Others

section Namespaces

open Pipeline (fresh shipped lone loneDocument loneGraph ofBytes_loneDocument build_lone)

def otherDocument : ByteArray :=
  "metadata: {name: w, namespace: other}
spec:
  compute: {nodes: 1, instanceType: large}
  networking: {topology: star}
  storage: {persistent: false}
".toUTF8

def other : WorkloadSpec := { lone with space := "other", compute := ⟨1, "large"⟩ }

def otherGraph : ResourceGraph := ⟨"other/w", [ResourceGraph.computeNode other 0]⟩

set_option maxRecDepth 1000 in
theorem ofBytes_otherDocument : WorkloadSpec.ofBytes otherDocument = .ok other := by
  have htext : Yaml.Document.ofBytes? otherDocument = Yaml.Document.ofText? _ :=
    Yaml.Document.ofBytes?_ofList _
  rw [← toOption_eq_some, WorkloadSpec.ofBytes, Yaml.Value.ofBytes?, htext]
  decide +kernel

theorem build_other : ResourceGraph.build other = .ok otherGraph := by cbv

def planOf (g : ResourceGraph) (t : Provider) : Plan :=
  ⟨g.hash Digest.blake3, [t], .of [(t, Shipped.v1)], ∅⟩

theorem synthesized_planOf {t : Provider}
    (h : (shipped (.of [(t, Shipped.v1)])).bind t = .ok Shipped.v1) (g : ResourceGraph) :
    Synthesized g (fresh g (planOf g t)) := by
  have hplan : (shipped (.of [(t, Shipped.v1)])).plan g [t] = .ok (planOf g t) := by
    refine Pipeline.Planned.plan_eq ⟨rfl, rfl, by simp [planOf], ?_, ?_⟩
    · simp [planOf, Pipeline.bound?, h]
    · simp [planOf, Pipeline.unbound?, h]
  obtain ⟨answer, c, root, hx, -⟩ := Pipeline.came_call (shipped (.of [(t, Shipped.v1)])) .inMemory
    ⟨g, [t], none, .inTurn none⟩ (.dir [])
  have hanswer := Pipeline.synthesize_none .inMemory g (.of [(t, Shipped.v1)]) [t] (.dir [])
  have hcall : (shipped (.of [(t, Shipped.v1)])).call .inMemory ⟨g, [t], none, .inTurn none⟩ =
      (shipped (.of [(t, Shipped.v1)])).synthesize .inMemory g [t] none none := rfl
  rw [← hcall, hx, hplan] at hanswer
  obtain rfl : answer = .ok (fresh g (planOf g t)) := hanswer
  exact ⟨_, _, _, _, _, _, .builtin, rfl, rfl, .inl rfl, hx⟩

def loneOutcome : Outcome := fresh loneGraph (planOf loneGraph Shipped.aws)

theorem synthesized_loneOutcome : Synthesized loneGraph loneOutcome :=
  synthesized_planOf (by decide +kernel) loneGraph

theorem mem_loneOutcome : Shipped.aws ∈ loneOutcome.artifacts := by decide +kernel

def loneRoot : Tree := ((writeOutcome ⟨"out"⟩ loneGraph.name loneOutcome).run.run (.dir [])).2

theorem run_loneOutcome : ∃ ps,
    (writeOutcome ⟨"out"⟩ loneGraph.name loneOutcome).run.run (.dir []) = (.ok ps, loneRoot) :=
  run_of_isOk (by decide +kernel)

theorem trees_of_other_workload_gcp : ∃ ps root,
    Leads (writeOutcome ⟨"out"⟩ otherGraph.name
      (fresh otherGraph (planOf otherGraph Shipped.gcp))).run loneRoot (.ok ps) root ∧
    root.get? (treePlace ⟨"out"⟩ loneGraph.name Shipped.aws) =
      loneRoot.get? (treePlace ⟨"out"⟩ loneGraph.name Shipped.aws) := by
  obtain ⟨ps, hrun⟩ := run_loneOutcome
  obtain ⟨ps', hrun'⟩ := @run_of_isOk _ _ loneRoot (writeOutcome ⟨"out"⟩ otherGraph.name
    (fresh otherGraph (planOf otherGraph Shipped.gcp))) (by decide +kernel)
  have hleads := leads_of_run hrun'
  have hother : Shipped.aws ∉ (fresh otherGraph (planOf otherGraph Shipped.gcp)).artifacts := by
    decide +kernel
  exact ⟨ps', _, hleads, trees_of_other_workload ofBytes_loneDocument build_lone
    ofBytes_otherDocument build_other synthesized_loneOutcome
    (synthesized_planOf (by decide +kernel) otherGraph) (leads_of_run hrun) hleads.reaches
    mem_loneOutcome fun hsame ↦ hother hsame.2⟩

/-- On the same target the later tree takes the place of the earlier one. -/
theorem not_trees_of_other_namespace : ¬ ∀ (document document' : ByteArray)
    (spec spec' : WorkloadSpec) (g g' : ResourceGraph) (o o' : Outcome) (out : Path)
    (root root₁ root₂ : Tree) (ps ps' : List Path), WorkloadSpec.ofBytes document = .ok spec →
    ResourceGraph.build spec = .ok g → WorkloadSpec.ofBytes document' = .ok spec' →
    ResourceGraph.build spec' = .ok g' → spec.qualifiedName ≠ spec'.qualifiedName →
    Synthesized g o → Synthesized g' o' →
    (writeOutcome out g.name o).run.run root = (.ok ps, root₁) →
    (writeOutcome out g'.name o').run.run root₁ = (.ok ps', root₂) → ∀ t ∈ o.artifacts,
    root₂.get? (treePlace out g.name t) = root₁.get? (treePlace out g.name t) := by
  intro hall
  obtain ⟨ps, hrun⟩ := run_loneOutcome
  obtain ⟨ps', hrun'⟩ := @run_of_isOk _ _ loneRoot (writeOutcome ⟨"out"⟩ otherGraph.name
    (fresh otherGraph (planOf otherGraph Shipped.aws))) (by decide +kernel)
  have hsame := hall _ _ _ _ _ _ _ _ _ _ _ _ _ _ ofBytes_loneDocument build_lone
    ofBytes_otherDocument build_other (by decide) synthesized_loneOutcome
    (synthesized_planOf (by decide +kernel) otherGraph) hrun hrun' _ mem_loneOutcome
  have hdiffer : (((writeOutcome ⟨"out"⟩ otherGraph.name
      (fresh otherGraph (planOf otherGraph Shipped.aws))).run.run loneRoot).2.fileAt?
        (treePlace ⟨"out"⟩ loneGraph.name Shipped.aws ++ ["compute_0.tf"])) ≠
      loneRoot.fileAt? (treePlace ⟨"out"⟩ loneGraph.name Shipped.aws ++ ["compute_0.tf"]) := by
    decide +kernel
  refine hdiffer ?_
  rw [Tree.fileAt?, Tree.fileAt?, Tree.get?_append, hsame, ← Tree.get?_append]

end Namespaces

end Emission

end Multicloud
