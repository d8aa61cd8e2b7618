import Multicloud.Proofs.Artifact.Refusal
import Multicloud.Proofs.Graph.Override
import Multicloud.Proofs.Rules.Supported

namespace Multicloud

/-- What each rule refers to is what the builder writes the id of a resource into. -/
def RuleSet.RefersAsBuilt (set : RuleSet) : Prop :=
  ∀ k rule, set.rule? k = some rule → ∀ s ∈ rule.substitutions, s.conversion = .reference →
    s.property ∈ ResourceGraph.referenceNames k

namespace Walk

variable {set : RuleSet} {before : List Resource} {r : Resource} {id x : String}

/-- A resource whose references are among its dependencies is not refused for one of them. -/
theorem not_refuses_unresolvedReference (hset : set.RefersAsBuilt)
    (hr : ∀ name ∈ ResourceGraph.referenceNames r.kind,
      ∃ dep ∈ r.dependsOn, r.properties[name]? = some (.text dep))
    (hd : ∀ dep ∈ r.dependsOn, dep ∈ before.map Resource.id) :
    ¬ Refuses set before r (.unresolvedReference id x) := by
  intro h
  obtain ⟨rule, hrule, s, hs, hc, p, hp, rfl, hnot⟩ := h.exists_reference
  obtain ⟨dep, hdep, htext⟩ := hr s.property (hset r.kind rule hrule s hs hc)
  obtain rfl := Option.some.inj (hp.symm.trans htext)
  exact hnot (hd dep hdep)

end Walk

theorem Shipped.refersAsBuilt_of_mem_full {d : RuleSetDraft} (hd : d ∈ Shipped.full) :
    d.finish.RefersAsBuilt := by
  intro k rule hrule s hs hc
  obtain ⟨rule', hrule', rfl, -, hfits, -⟩ := exists_rule_of_mem_full hd k
  obtain rfl := Option.some.inj (hrule.symm.trans hrule')
  exact hfits.reference s hs hc

namespace ResourceGraph

variable {spec : WorkloadSpec} {overrides : List Override} {g : ResourceGraph}

theorem of_buildWith_eq_ok (h : buildWith spec overrides = .ok g) :
    g.Accepted ∧ ∀ r ∈ g.resources, ∃ r₀, Made spec r₀ ∧ r = overlay overrides r₀ := by
  obtain ⟨-, -, edges, -, -, -, hg⟩ := buildWith_eq_ok_iff.1 h
  obtain ⟨-, -, -, -, hperm, -⟩ := of_ofResources_eq_ok hg
  refine ⟨⟨_, _, hg⟩, fun r hr ↦ ?_⟩
  obtain ⟨r₀, hr₀, rfl⟩ := List.mem_map.1 (hperm.mem_iff.1 hr)
  exact ⟨r₀, made_of_mem hr₀, rfl⟩

theorem exists_buildWith_eq_ok (hb : build spec = .ok g)
    (ho : ∀ o ∈ overrides, o.resource ∈ g.ids ∧ o.dependsOn ∈ g.ids ∧
      rank o.dependsOn < rank o.resource) : ∃ g', buildWith spec overrides = .ok g' := by
  obtain ⟨rs, hd, hr, hperm, -, hbuild⟩ := buildWith_of_build hb
  obtain ⟨-, -, hmade, -, -⟩ := of_build_eq_ok hb
  have hids (id : String) : id ∈ g.ids ↔ id ∈ rs.map Resource.id := (hperm.map _).mem_iff
  simp only [hids] at ho
  have hknown : ∀ o ∈ overrides, o.resource ∈ rs.map Resource.id := fun o h ↦ (ho o h).1
  have hacyclic : Acyclic (rs.map (overlay overrides)) := by
    refine acyclic_of_rank rank fun r' hr' dep hdep ↦ ?_
    obtain ⟨r, hmem, rfl⟩ := List.mem_map.1 hr'
    rw [id_overlay]
    rcases mem_overlay.1 hdep with hdep | hover
    · exact (hmade r (hperm.mem_iff.2 hmem)).rank_lt hdep
    · exact (ho _ hover).2.2
  rw [hbuild, (addDependencies_eq_ok_iff hd).2 ⟨hknown, rfl⟩]
  exact ((ofResources_of_resolves spec.qualifiedName (by rwa [map_id_overlay])
    (resolves_overlay hr fun o h ↦ (ho o h).2.1)).resolve_right fun h ↦ h.1 hacyclic).2

theorem Made.exists_reference_overlay {r : Resource} (h : Made spec r) {name : String}
    (hname : name ∈ referenceNames (overlay overrides r).kind) :
    ∃ dep ∈ (overlay overrides r).dependsOn,
      (overlay overrides r).properties[name]? = some (.text dep) := by
  rw [kind_overlay] at hname
  obtain ⟨dep, hdep, hp⟩ := h.exists_reference hname
  exact ⟨dep, mem_overlay.2 (.inl hdep), by rwa [properties_overlay]⟩

/-- What is built declares all that it refers to as dependencies. So no walk of a rule set that
refers to nothing else comes upon an unresolved reference. -/
theorem buildWith_refers (h : buildWith spec overrides = .ok g) :
    (∀ r ∈ g.resources, ∀ name ∈ referenceNames r.kind,
      ∃ dep ∈ r.dependsOn, r.properties[name]? = some (.text dep)) ∧
    ∀ (registry : Registry) p v set, registry.ruleSet p v = .ok set → set.RefersAsBuilt →
      ∀ f, walkTarget g registry p v = .error f → ∀ id x, f.error ≠ .unresolvedReference id x := by
  obtain ⟨hg, hmade⟩ := of_buildWith_eq_ok h
  have hrefers : ∀ r ∈ g.resources, ∀ name ∈ referenceNames r.kind,
      ∃ dep ∈ r.dependsOn, r.properties[name]? = some (.text dep) := by
    intro r hr name hname
    obtain ⟨r₀, hr₀, rfl⟩ := hmade r hr
    exact hr₀.exists_reference_overlay hname
  refine ⟨hrefers, ?_⟩
  rintro registry p v set hs hset f hf id x hx
  obtain ⟨before, r, e, hstop, rfl⟩ := (walkTarget_eq_error_iff_stopsAt hg hs).1 hf
  obtain ⟨after, he⟩ := hstop.split
  obtain rfl : e = .unresolvedReference id x := hx
  have hr : r ∈ g.resources := by simp [he]
  exact Walk.not_refuses_unresolvedReference hset (hrefers r hr) (hg.ordered he).1 hstop.refused

def paired : WorkloadSpec where
  name := "w"
  space := "default"
  compute := ⟨2, "small"⟩
  networking := ⟨.mesh, ["a.b"]⟩
  storage := ⟨true, "tape"⟩
  targets := []

theorem buildWith_refers_paired :
    ∃ g, buildWith paired [⟨"ingress-a.b", "volume-1"⟩] = .ok g ∧
      (∀ r ∈ g.resources, ∀ name ∈ referenceNames r.kind,
        ∃ dep ∈ r.dependsOn, r.properties[name]? = some (.text dep)) ∧
      ∀ f, walkTarget g .builtin Shipped.aws Shipped.v1 = .error f →
        ∀ id x, f.error ≠ .unresolvedReference id x := by
  obtain ⟨g₀, hb, -, -, hperm⟩ : ∃ g, build paired = .ok g ∧ g.workload = paired.qualifiedName ∧
      g.ids.Nodup ∧ g.resources.Perm (resourcesOf paired [(0, 1)]) :=
    exists_of_edges_eq_ok (by decide) (by decide +kernel) (by decide +kernel)
  have hid {r : Resource} (hr : r ∈ resourcesOf paired [(0, 1)]) : r.id ∈ g₀.ids :=
    List.mem_map_of_mem (hperm.mem_iff.2 hr)
  have hroute : "ingress-a.b" ∈ g₀.ids :=
    hid (mem_resourcesOf.2 (.inr (.inr (.inl ⟨"a.b", .head _, .inl rfl⟩))))
  have hvolume : "volume-1" ∈ g₀.ids :=
    hid (mem_resourcesOf.2 (.inr (.inr (.inr ⟨rfl, 1, by decide, rfl⟩))))
  obtain ⟨g, hg⟩ : ∃ g, buildWith paired [⟨"ingress-a.b", "volume-1"⟩] = .ok g :=
    exists_buildWith_eq_ok hb (by simpa using ⟨hroute, hvolume, by decide⟩)
  obtain ⟨hrefers, hwalk⟩ := buildWith_refers hg
  have hfull : Shipped.aws1 ∈ Shipped.full := .head _
  have hset : Registry.builtin.ruleSet Shipped.aws Shipped.v1 = .ok Shipped.aws1.finish :=
    Shipped.ruleSet_builtin Shipped.aws1 (.head _)
  exact ⟨g, hg, hrefers, hwalk _ _ _ _ hset (Shipped.refersAsBuilt_of_mem_full hfull)⟩

end ResourceGraph

end Multicloud
