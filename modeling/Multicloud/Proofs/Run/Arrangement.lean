import Multicloud.Proofs.Graph.Arrangement
import Multicloud.Proofs.Run.Plan
import Multicloud.Rules.Shipped
import Multicloud.Verification

namespace Multicloud

open ResourceGraph (buildWith buildWith_of_rearranges)

variable {spec spec' : WorkloadSpec} {overrides overrides' : List Override}
  {targets targets' : List Provider}

theorem Pipeline.run_congr (p : Pipeline) (c : RunCache) (g : ResourceGraph)
    (h : ∀ t, t ∈ targets ↔ t ∈ targets') (previous : Option LockEntry)
    (work : Bound → TargetRuns) :
    p.run c g targets previous work = p.run c g targets' previous work := by
  rw [Pipeline.run, plan_congr p g h, ← Pipeline.run]

/-- In what order domains, overrides and targets are written down, and how often a target is, makes
no difference to a graph and to what becomes of it. Neither does the order in which a sweep goes
through those that wait for a release. -/
theorem arrangement_invariant (hs : spec.Rearranges spec') (ho : overrides.Perm overrides')
    (ht : ∀ t, t ∈ targets ↔ t ∈ targets') :
    ((∃ g, buildWith spec overrides = .ok g) ↔ ∃ g, buildWith spec' overrides' = .ok g) ∧
    (∀ g g', buildWith spec overrides = .ok g → buildWith spec' overrides' = .ok g' →
      g = g' ∧ g.ids = g'.ids ∧ (∀ digest, g.hash digest = g'.hash digest) ∧
      g.verificationPlan = g'.verificationPlan ∧
      ∀ (p : Pipeline) (c : RunCache) (previous : Option LockEntry),
        (∀ cancelAfter, p.synthesize c g targets previous cancelAfter =
          p.synthesize c g' targets' previous cancelAfter) ∧
        ∀ events, p.synthesizeConcurrently c g targets previous events =
          p.synthesizeConcurrently c g' targets' previous events) ∧
    ∀ (rs : ResourceMap) (users : TextMap (List String)),
      (∀ id, (users.getD id []).Perm (rs.users.getD id [])) →
        (Sweep.start rs).run users rs.size = rs.sweep := by
  refine ⟨⟨?_, ?_⟩, ?_, ?_⟩
  · intro h
    obtain ⟨g, hg⟩ := h
    exact ⟨g, buildWith_of_rearranges hs ho hg⟩
  · intro h
    obtain ⟨g, hg⟩ := h
    exact ⟨g, buildWith_of_rearranges hs.symm ho.symm hg⟩
  · intro g g' hg hg'
    obtain rfl : g = g' := Except.ok.inj ((buildWith_of_rearranges hs ho hg).symm.trans hg')
    refine ⟨rfl, rfl, fun _ ↦ rfl, rfl, fun p c previous ↦ ⟨?_, ?_⟩⟩
    · intro cancelAfter
      exact p.run_congr c g ht previous _
    · intro events
      exact p.run_congr c g ht previous _
  · intro rs users h
    exact Sweep.run_perm h rs.size (Sweep.start rs)

section Pair

def pairSpec (domains : List String) : WorkloadSpec where
  name := "w"
  space := "default"
  compute := ⟨2, "small"⟩
  networking := ⟨.star, domains⟩
  storage := ⟨false, "standard"⟩
  targets := []

def laterNode : Override := ⟨"compute-1", "compute-0"⟩

def laterRecord : Override := ⟨"dns-a.com", "dns-b.com"⟩

def pairResources : List Resource :=
  (ResourceGraph.resourcesOf (pairSpec ["a.com", "b.com"]) [(0, 1)]).map
    (ResourceGraph.overlay [laterNode, laterRecord])

def pairRank (id : String) : Nat :=
  ["compute-0", "compute-1", "link-0-1", "ingress-a.com", "ingress-b.com", "dns-b.com",
    "dns-a.com"].idxOf id

theorem exists_pairGraph :
    ∃ g, buildWith (pairSpec ["a.com", "b.com"]) [laterNode, laterRecord] = .ok g := by
  have hids : (pairResources.map Resource.id).Nodup := by decide +kernel
  have hresolves : ResourceGraph.Resolves pairResources := by
    have h : ∀ r ∈ pairResources, ∀ dep ∈ r.dependsOn.toList,
        ∃ r' ∈ pairResources, r'.id = dep := by decide +kernel
    intro r hr dep hdep
    exact h r hr dep (Std.ExtTreeSet.mem_toList.2 hdep)
  have hacyclic : ResourceGraph.Acyclic pairResources := by
    have h : ∀ r ∈ pairResources, ∀ dep ∈ r.dependsOn.toList, pairRank dep < pairRank r.id := by
      decide +kernel
    apply ResourceGraph.acyclic_of_rank pairRank
    intro r hr dep hdep
    exact h r hr dep (Std.ExtTreeSet.mem_toList.2 hdep)
  obtain ⟨-, g, hg⟩ := (ResourceGraph.ofResources_of_resolves "default/w" hids
    hresolves).resolve_right fun h ↦ h.1 hacyclic
  refine ⟨g, ResourceGraph.buildWith_eq_ok_iff.2 ⟨by decide, ?_, [(0, 1)], rfl, ?_, ?_, hg⟩⟩
  · decide +kernel
  · rwa [pairResources, ResourceGraph.map_id_overlay] at hids
  · decide +kernel

theorem arrangement_invariant_pair :
    ∃ g, buildWith (pairSpec ["a.com", "b.com"]) [laterNode, laterRecord] = .ok g ∧
      buildWith (pairSpec ["b.com", "a.com"]) [laterRecord, laterNode] = .ok g ∧
      ∀ (p : Pipeline) (c : RunCache),
        p.synthesize c g [Shipped.aws, Shipped.gcp] none none =
          p.synthesize c g [Shipped.gcp, Shipped.aws, Shipped.gcp] none none := by
  have hs : (pairSpec ["a.com", "b.com"]).Rearranges (pairSpec ["b.com", "a.com"]) :=
    ⟨.swap _ _ _, rfl⟩
  have ho : [laterNode, laterRecord].Perm [laterRecord, laterNode] := .swap _ _ _
  have ht (t : Provider) : t ∈ [Shipped.aws, Shipped.gcp] ↔
      t ∈ [Shipped.gcp, Shipped.aws, Shipped.gcp] := by
    simp only [List.mem_cons, List.not_mem_nil, or_false]
    tauto
  obtain ⟨hbuilt, hsame, -⟩ := arrangement_invariant hs ho ht
  obtain ⟨g, hg⟩ := exists_pairGraph
  obtain ⟨g', hg'⟩ := hbuilt.1 ⟨g, hg⟩
  obtain ⟨rfl, -, -, -, hrun⟩ := hsame g g' hg hg'
  exact ⟨g, hg, hg', fun p c ↦ (hrun p c none).1 none⟩

end Pair

end Multicloud
