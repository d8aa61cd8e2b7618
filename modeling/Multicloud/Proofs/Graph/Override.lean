import Multicloud.Proofs.Graph.Overlay

namespace Multicloud

namespace Override

theorem kind_onto (o : Override) (r : Resource) : (o.onto r).kind = r.kind := by
  unfold onto
  split <;> rfl

theorem properties_onto (o : Override) (r : Resource) :
    (o.onto r).properties = r.properties := by
  unfold onto
  split <;> rfl

theorem mem_onto {o : Override} {r : Resource} {dep : String} :
    dep ∈ (o.onto r).dependsOn ↔ dep ∈ r.dependsOn ∨ ⟨r.id, dep⟩ = o := by
  by_cases h : r.id = o.resource
  · rw [onto_of_eq h, Std.ExtTreeSet.mem_insert, Std.LawfulEqOrd.compare_eq_iff_eq, or_comm,
      mk.injEq, and_iff_right h, eq_comm (a := dep)]
  · rw [onto_of_ne h, mk.injEq]
    exact (or_iff_left fun he ↦ h he.1).symm

end Override

namespace ResourceGraph

variable {spec : WorkloadSpec} {overrides overrides' : List Override} {rs : List Resource}
  {g g' : ResourceGraph} {o : Override} {r : Resource} {dep : String}

section Overlay

theorem kind_overlay (overrides : List Override) (r : Resource) :
    (overlay overrides r).kind = r.kind := by
  induction overrides generalizing r with
  | nil => rfl
  | cons o overrides ih => exact (ih (o.onto r)).trans (o.kind_onto r)

theorem properties_overlay (overrides : List Override) (r : Resource) :
    (overlay overrides r).properties = r.properties := by
  induction overrides generalizing r with
  | nil => rfl
  | cons o overrides ih => exact (ih (o.onto r)).trans (o.properties_onto r)

theorem mem_overlay : dep ∈ (overlay overrides r).dependsOn ↔
    dep ∈ r.dependsOn ∨ ⟨r.id, dep⟩ ∈ overrides := by
  induction overrides generalizing r with
  | nil => exact (or_iff_left List.not_mem_nil).symm
  | cons o overrides ih =>
    have h : dep ∈ (overlay overrides (o.onto r)).dependsOn ↔ _ := ih
    rw [Override.mem_onto, Override.id_onto, or_assoc] at h
    rw [List.mem_cons]
    exact h

theorem overlay_congr (h : ∀ o, o ∈ overrides ↔ o ∈ overrides') :
    overlay overrides = overlay overrides' := by
  funext r
  have hdeps : (overlay overrides r).dependsOn = (overlay overrides' r).dependsOn := by
    apply Std.ExtTreeSet.ext_mem
    intro dep
    rw [mem_overlay, mem_overlay, h]
  have hid := (id_overlay overrides r).trans (id_overlay overrides' r).symm
  have hkind := (kind_overlay overrides r).trans (kind_overlay overrides' r).symm
  have hproperties := (properties_overlay overrides r).trans (properties_overlay overrides' r).symm
  cases h₁ : overlay overrides r
  cases h₂ : overlay overrides' r
  simp only [h₁, h₂] at hdeps hid hkind hproperties
  subst hdeps hid hkind hproperties
  rfl

end Overlay

theorem addDependencies_append (rs : List Resource) (before after : List Override) :
    addDependencies rs (before ++ after) =
      addDependencies rs before >>= fun rs ↦ addDependencies rs after := List.foldlM_append

theorem addDependencies_of_unknown (hd : (rs.map Resource.id).Nodup) {before after : List Override}
    (hbefore : ∀ o' ∈ before, o'.resource ∈ rs.map Resource.id)
    (ho : o.resource ∉ rs.map Resource.id) :
    addDependencies rs (before ++ o :: after) = .error (.unknownOverrideTarget o.resource) := by
  have hids := map_id_overlay before rs
  rw [addDependencies_append, (addDependencies_eq_ok_iff hd).2 ⟨hbefore, rfl⟩]
  change addDependencies (rs.map (overlay before)) (o :: after) = _
  rw [addDependencies, List.foldlM_cons, addDependency_eq o (by rwa [hids]), hids, if_neg ho]
  rfl

theorem buildWith_of_build (h : build spec = .ok g) :
    ∃ rs, (rs.map Resource.id).Nodup ∧ Resolves rs ∧ g.resources.Perm rs ∧
      g.workload = spec.qualifiedName ∧ ∀ overrides, buildWith spec overrides =
        (addDependencies rs overrides >>= ofResources spec.qualifiedName) := by
  obtain ⟨hn, hdomains, edges, he, hd, -, hg⟩ := buildWith_eq_ok_iff.1 h
  have hid : (resourcesOf spec edges).map (overlay []) = resourcesOf spec edges := List.map_id _
  rw [hid] at hg
  obtain ⟨hw, -, hresolves, -, hperm, -⟩ := of_ofResources_eq_ok hg
  refine ⟨resourcesOf spec edges, hd, hresolves, hperm, hw, fun overrides ↦ ?_⟩
  have hnone := (repeatedDomain?_eq_none_iff ∅).2 ⟨hdomains, by simp⟩
  rw [buildWith_eq, if_neg hn, hnone, he]
  dsimp only
  cases addDependencies (resourcesOf spec edges) overrides <;> rfl

theorem buildWith_of_build_error {e : GraphError} (h : build spec = .error e)
    (overrides : List Override) : buildWith spec overrides = .error e := by
  rw [buildWith_eq]
  rw [build_eq] at h
  by_cases hn : spec.compute.nodes = 0
  · rw [if_pos hn] at h ⊢
    exact h
  rw [if_neg hn] at h ⊢
  cases hdomains : repeatedDomain? ∅ spec.networking.domains with
  | some d =>
    rw [hdomains] at h
    exact h
  | none =>
    cases he : spec.networking.topology.edges spec.compute.nodes with
    | error e' =>
      rw [hdomains, he] at h
      exact h
    | ok edges =>
      obtain ⟨g, hg, -⟩ := exists_of_edges_eq_ok hn hdomains he
      rw [build_eq, if_neg hn] at hg
      rw [hg] at h
      cases h

section Overlaid

theorem resolves_overlay (hr : Resolves rs)
    (hdeps : ∀ o ∈ overrides, o.dependsOn ∈ rs.map Resource.id) :
    Resolves (rs.map (overlay overrides)) := by
  have hmem {dep : String} (h : dep ∈ rs.map Resource.id) :
      ∃ r' ∈ rs.map (overlay overrides), r'.id = dep := by
    rw [← map_id_overlay overrides] at h
    exact List.mem_map.1 h
  intro r' hr' dep hdep
  obtain ⟨r, hrmem, rfl⟩ := List.mem_map.1 hr'
  rcases mem_overlay.1 hdep with hdep | ho
  · exact hmem (List.mem_map.2 (hr r hrmem dep hdep))
  · exact hmem (hdeps _ ho)

variable (hknown : ∀ o ∈ overrides, o.resource ∈ rs.map Resource.id)

include hknown

theorem depends_overlay {id : String} : Depends (rs.map (overlay overrides)) id dep ↔
    Depends rs id dep ∨ ⟨id, dep⟩ ∈ overrides := by
  constructor
  · rintro ⟨r', hr', rfl, hdep⟩
    obtain ⟨r, hr, rfl⟩ := List.mem_map.1 hr'
    rw [id_overlay]
    exact (mem_overlay.1 hdep).imp_left fun hdep ↦ ⟨r, hr, rfl, hdep⟩
  · rintro (⟨r, hr, rfl, hdep⟩ | ho)
    · exact ⟨_, List.mem_map_of_mem hr, id_overlay _ r, mem_overlay.2 (.inl hdep)⟩
    · obtain ⟨r, hr, rfl⟩ := List.mem_map.1 (hknown _ ho)
      exact ⟨_, List.mem_map_of_mem hr, id_overlay _ r, mem_overlay.2 (.inr ho)⟩

theorem not_resolves_overlay (ho : o ∈ overrides) (hdep : o.dependsOn ∉ rs.map Resource.id) :
    ¬ Resolves (rs.map (overlay overrides)) := by
  intro hresolves
  obtain ⟨r, hr, hid⟩ := List.mem_map.1 (hknown o ho)
  have hmem : o.dependsOn ∈ (overlay overrides r).dependsOn := mem_overlay.2 (.inr (hid ▸ ho))
  obtain ⟨r', hr', he⟩ := hresolves _ (List.mem_map_of_mem hr) _ hmem
  rw [← map_id_overlay overrides] at hdep
  exact hdep (List.mem_map.2 ⟨r', hr', he⟩)

theorem ofResources_overlay_of_dangling (w : String) (hd : (rs.map Resource.id).Nodup)
    (hr : Resolves rs) (ho : o ∈ overrides) (hdep : o.dependsOn ∉ rs.map Resource.id) :
    ∃ o ∈ overrides, o.dependsOn ∉ rs.map Resource.id ∧
      ofResources w (rs.map (overlay overrides)) =
        .error (.danglingDependency o.resource o.dependsOn) := by
  have hd : ((rs.map (overlay overrides)).map Resource.id).Nodup := by rwa [map_id_overlay]
  obtain ⟨r', hr', dep, hdep, hnot, herror⟩ :=
    ofResources_of_not_resolves w hd (not_resolves_overlay hknown ho hdep)
  obtain ⟨r, hrmem, rfl⟩ := List.mem_map.1 hr'
  have hnew : dep ∉ rs.map Resource.id := by
    rw [← map_id_overlay overrides, List.mem_map]
    rintro ⟨r', hr', he⟩
    exact hnot r' hr' he
  rw [id_overlay] at herror
  rcases mem_overlay.1 hdep with hold | ho
  · exact absurd (List.mem_map.2 (hr r hrmem dep hold)) hnew
  · exact ⟨_, ho, hnew, herror⟩

end Overlaid

/-- The dependencies of a graph, and those that overrides name. -/
def DependsWith (g : ResourceGraph) (overrides : List Override) (id dep : String) : Prop :=
  Depends g.resources id dep ∨ ⟨id, dep⟩ ∈ overrides

/-- A graph with the resources of another one, each with what overrides name for it as further
dependencies. -/
structure Extends (overrides : List Override) (g g' : ResourceGraph) : Prop where
  workload : g'.workload = g.workload
  ids : g'.ids.Perm g.ids
  resource : ∀ r ∈ g.resources, ∃ r' ∈ g'.resources, r'.id = r.id ∧ r'.kind = r.kind ∧
    r'.properties = r.properties ∧
    ∀ dep, dep ∈ r'.dependsOn ↔ dep ∈ r.dependsOn ∨ ⟨r.id, dep⟩ ∈ overrides

theorem extends_of_perm (hw : g'.workload = g.workload)
    (h : g'.resources.Perm (g.resources.map (overlay overrides))) : Extends overrides g g' where
  workload := hw
  ids := by
    rw [ids, ids, ← map_id_overlay overrides g.resources]
    exact h.map _
  resource r hr :=
    ⟨overlay overrides r, h.mem_iff.2 (List.mem_map_of_mem hr), id_overlay _ r, kind_overlay _ r,
      properties_overlay _ r, fun _ ↦ mem_overlay⟩

/-- Overrides are refused for the first resource that is not there, for a dependency that is not
there, or for a cycle, in this order. Otherwise they add just the dependencies that they name, in
whatever order and however often. -/
theorem buildWith_exact (spec : WorkloadSpec) (overrides : List Override) :
    (∀ e, build spec = .error e → buildWith spec overrides = .error e) ∧
    ∀ g, build spec = .ok g →
      (∀ before o after, overrides = before ++ o :: after →
        (∀ o' ∈ before, o'.resource ∈ g.ids) → o.resource ∉ g.ids →
        buildWith spec overrides = .error (.unknownOverrideTarget o.resource)) ∧
      ((∀ o ∈ overrides, o.resource ∈ g.ids) →
        ((∃ o ∈ overrides, o.dependsOn ∉ g.ids) →
          ∃ o ∈ overrides, o.dependsOn ∉ g.ids ∧
            buildWith spec overrides = .error (.danglingDependency o.resource o.dependsOn)) ∧
        ((∀ o ∈ overrides, o.dependsOn ∈ g.ids) →
          ((∃ id, Relation.TransGen (g.DependsWith overrides) id id) →
            ∃ members, buildWith spec overrides = .error (.cyclicDependency members)) ∧
          ((∀ id, ¬ Relation.TransGen (g.DependsWith overrides) id id) →
            ∃ g', Extends overrides g g' ∧
              ∀ overrides', (∀ o, o ∈ overrides' ↔ o ∈ overrides) →
                buildWith spec overrides' = .ok g'))) := by
  refine ⟨fun e he ↦ buildWith_of_build_error he overrides, fun g hg ↦ ?_⟩
  obtain ⟨rs, hd, hr, hperm, hw, hbuild⟩ := buildWith_of_build hg
  have hids (id : String) : id ∈ g.ids ↔ id ∈ rs.map Resource.id := (hperm.map _).mem_iff
  simp only [hids]
  refine ⟨?_, fun hknown ↦ ?_⟩
  · rintro before o after rfl hbefore ho
    rw [hbuild, addDependencies_of_unknown hd hbefore ho]
    rfl
  -- From here on, the graph is that of the resources with the overrides laid over them.
  have hover {overrides' : List Override} (h : ∀ o, o ∈ overrides' ↔ o ∈ overrides) :
      buildWith spec overrides' = ofResources spec.qualifiedName (rs.map (overlay overrides)) := by
    have hknown' : ∀ o ∈ overrides', o.resource ∈ rs.map Resource.id :=
      fun o ho ↦ hknown o ((h o).1 ho)
    rw [hbuild, (addDependencies_eq_ok_iff hd).2 ⟨hknown', rfl⟩, overlay_congr h]
    rfl
  have hself := hover fun _ ↦ .rfl
  refine ⟨?_, fun hdeps ↦ ?_⟩
  · rintro ⟨o, ho, hdep⟩
    rw [hself]
    exact ofResources_overlay_of_dangling hknown _ hd hr ho hdep
  have hdepends : Depends (rs.map (overlay overrides)) = g.DependsWith overrides := by
    funext id dep
    rw [depends_overlay hknown, DependsWith, Depends, Depends]
    simp only [hperm.mem_iff]
  have hd' : ((rs.map (overlay overrides)).map Resource.id).Nodup := by rwa [map_id_overlay]
  have hcases := ofResources_of_resolves spec.qualifiedName hd' (resolves_overlay hr hdeps)
  rw [Acyclic, hdepends] at hcases
  refine ⟨?_, fun hacyclic ↦ ?_⟩
  · rintro ⟨id, hcycle⟩
    rw [hself]
    exact (hcases.resolve_left fun h ↦ h.1 id hcycle).2
  · obtain ⟨-, g', hg'⟩ := hcases.resolve_right fun h ↦ h.1 hacyclic
    obtain ⟨hw', -, -, -, hperm', -⟩ := of_ofResources_eq_ok hg'
    refine ⟨g', extends_of_perm (hw'.trans hw.symm) (hperm'.trans (hperm.map _).symm), ?_⟩
    exact fun overrides' h ↦ (hover h).trans hg'

end ResourceGraph

end Multicloud
