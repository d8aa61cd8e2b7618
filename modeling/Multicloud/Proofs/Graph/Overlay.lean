import Multicloud.Proofs.Graph.Totality

namespace Multicloud

namespace Override

variable {o o' : Override} {r : Resource}

def onto (o : Override) (r : Resource) : Resource :=
  if r.id = o.resource then { r with dependsOn := r.dependsOn.insert o.dependsOn } else r

theorem id_onto (o : Override) (r : Resource) : (o.onto r).id = r.id := by
  unfold onto
  split <;> rfl

theorem onto_of_eq (h : r.id = o.resource) :
    o.onto r = { r with dependsOn := r.dependsOn.insert o.dependsOn } := if_pos h

theorem onto_of_ne (h : r.id ≠ o.resource) : o.onto r = r := if_neg h

theorem onto_comm (o o' : Override) (r : Resource) : o.onto (o'.onto r) = o'.onto (o.onto r) := by
  by_cases h : r.id = o.resource
  · by_cases h' : r.id = o'.resource
    · have hswap : (r.dependsOn.insert o'.dependsOn).insert o.dependsOn =
          (r.dependsOn.insert o.dependsOn).insert o'.dependsOn := by
        apply Std.ExtTreeSet.ext_mem
        intro dep
        simp only [Std.ExtTreeSet.mem_insert]
        exact or_left_comm
      calc o.onto (o'.onto r)
          = o.onto { r with dependsOn := r.dependsOn.insert o'.dependsOn } := by rw [onto_of_eq h']
        _ = { r with dependsOn := (r.dependsOn.insert o'.dependsOn).insert o.dependsOn } :=
            onto_of_eq h
        _ = { r with dependsOn := (r.dependsOn.insert o.dependsOn).insert o'.dependsOn } := by
            rw [hswap]
        _ = o'.onto { r with dependsOn := r.dependsOn.insert o.dependsOn } :=
            (onto_of_eq (r := { r with dependsOn := r.dependsOn.insert o.dependsOn }) h').symm
        _ = o'.onto (o.onto r) := by rw [onto_of_eq h]
    · rw [onto_of_ne h', onto_of_ne (r := o.onto r) (by rwa [id_onto])]
  · rw [onto_of_ne h, onto_of_ne (r := o'.onto r) (by rwa [id_onto])]

end Override

namespace ResourceGraph

variable {overrides overrides' : List Override} {rs rs' : List Resource} {o : Override}

def overlay (overrides : List Override) (r : Resource) : Resource :=
  overrides.foldl (fun r o ↦ o.onto r) r

theorem id_overlay (overrides : List Override) (r : Resource) :
    (overlay overrides r).id = r.id := by
  induction overrides generalizing r with
  | nil => rfl
  | cons o overrides ih => exact (ih (o.onto r)).trans (o.id_onto r)

theorem map_id_overlay (overrides : List Override) (rs : List Resource) :
    (rs.map (overlay overrides)).map Resource.id = rs.map Resource.id := by
  rw [List.map_map]
  exact List.map_congr_left fun r _ ↦ id_overlay overrides r

/-- Overrides may come in any order. -/
theorem overlay_perm (h : overrides.Perm overrides') : overlay overrides = overlay overrides' := by
  funext r
  exact h.foldl_eq' (fun o _ o' _ r ↦ o'.onto_comm o r) r

theorem addDependency_eq (o : Override) (hd : (rs.map Resource.id).Nodup) :
    addDependency o rs =
      if o.resource ∈ rs.map Resource.id then some (rs.map o.onto) else none := by
  induction rs with
  | nil => rfl
  | cons r rs ih =>
    rw [List.map_cons, List.nodup_cons] at hd
    rw [addDependency, ih hd.2]
    by_cases he : r.id = o.resource
    · have hrest : rs.map o.onto = rs := by
        apply (List.map_congr_left ?_).trans (List.map_id rs)
        intro r' hr'
        apply Override.onto_of_ne
        intro he'
        exact hd.1 (he.trans he'.symm ▸ List.mem_map_of_mem hr')
      simp [he, hrest, Override.onto_of_eq he]
    · have hmem : o.resource ∈ (r :: rs).map Resource.id ↔ o.resource ∈ rs.map Resource.id := by
        simp [Ne.symm he]
      rw [if_neg (by simpa using he), if_congr hmem rfl rfl]
      split
      · simp [Override.onto_of_ne he]
      · rfl

theorem addDependencies_eq_ok_iff (hd : (rs.map Resource.id).Nodup) :
    addDependencies rs overrides = .ok rs' ↔
      (∀ o ∈ overrides, o.resource ∈ rs.map Resource.id) ∧ rs' = rs.map (overlay overrides) := by
  induction overrides generalizing rs with
  | nil =>
    have hid : rs.map (overlay []) = rs := List.map_id rs
    simp [addDependencies, pure, Except.pure, hid, eq_comm]
  | cons o overrides ih =>
    have hids : (rs.map o.onto).map Resource.id = rs.map Resource.id := by
      rw [List.map_map]
      exact List.map_congr_left fun r _ ↦ o.id_onto r
    have hmap : (rs.map o.onto).map (overlay overrides) = rs.map (overlay (o :: overrides)) := by
      rw [List.map_map]
      rfl
    rw [addDependencies, List.foldlM_cons, addDependency_eq o hd, List.forall_mem_cons]
    by_cases hmem : o.resource ∈ rs.map Resource.id
    · have hd' : ((rs.map o.onto).map Resource.id).Nodup := by rwa [hids]
      have ih := ih hd'
      rw [hids, hmap] at ih
      rw [if_pos hmem, and_iff_right hmem]
      exact ih
    · rw [if_neg hmem]
      simp only [hmem, false_and, iff_false]
      intro h
      cases h

/-- What it takes to build a graph with overrides: all that it takes without them, and a resource
for each override. -/
theorem buildWith_eq_ok_iff {spec : WorkloadSpec} {g : ResourceGraph} :
    buildWith spec overrides = .ok g ↔
      spec.compute.nodes ≠ 0 ∧ (spec.networking.domains.map String.toLower).Nodup ∧
        ∃ edges, spec.networking.topology.edges spec.compute.nodes = .ok edges ∧
          ((resourcesOf spec edges).map Resource.id).Nodup ∧
          (∀ o ∈ overrides, o.resource ∈ (resourcesOf spec edges).map Resource.id) ∧
          ofResources spec.qualifiedName ((resourcesOf spec edges).map (overlay overrides)) =
            .ok g := by
  have hrepeated : repeatedDomain? ∅ spec.networking.domains = none ↔ _ :=
    repeatedDomain?_eq_none_iff ∅
  simp only [Std.ExtTreeSet.not_mem_empty, not_false_eq_true, implies_true, and_true] at hrepeated
  rw [buildWith_eq, ← hrepeated]
  by_cases hn : spec.compute.nodes = 0
  · simp [hn]
  rw [if_neg hn]
  cases hd : repeatedDomain? ∅ spec.networking.domains with
  | some d => simp
  | none =>
    cases he : spec.networking.topology.edges spec.compute.nodes with
    | error e => simp
    | ok edges =>
      have hids : ((resourcesOf spec edges).map Resource.id).Nodup :=
        nodup_ids_resourcesOf (nodup_domains hd) (Topology.edges_eq_ok he).1
      have hadd (rs : List Resource) :
          addDependencies (resourcesOf spec edges) overrides = .ok rs ↔ _ :=
        addDependencies_eq_ok_iff hids
      simp only [ne_eq, hn, not_false_eq_true, true_and, Except.ok.injEq, exists_eq_left', hids]
      cases ha : addDependencies (resourcesOf spec edges) overrides with
      | ok rs =>
        obtain ⟨hmem, rfl⟩ := (hadd rs).1 ha
        simp only [and_iff_right hmem]
      | error e =>
        simp only [reduceCtorEq, false_iff, not_and]
        intro hmem
        rw [(hadd _).2 ⟨hmem, rfl⟩] at ha
        cases ha

end ResourceGraph

end Multicloud
