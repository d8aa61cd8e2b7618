import Multicloud.Proofs.Graph.Overlay

namespace Multicloud

namespace Sweep

attribute [ext] Sweep

variable {rs : ResourceMap} {users : TextMap (List String)}

theorem foldl_relieve_perm {ids ids' : List String} (h : ids.Perm ids') (hd : ids.Nodup)
    (s : Sweep) : ids.foldl relieve s = ids'.foldl relieve s := by
  obtain ⟨hreleased, hwaiting, hready⟩ := foldl_relieve hd s
  obtain ⟨hreleased', hwaiting', hready'⟩ := foldl_relieve (h.nodup_iff.1 hd) s
  apply Sweep.ext
  · rw [hreleased, hreleased']
  · apply Std.ExtTreeSet.ext_mem
    intro id
    rw [hready, hready', h.mem_iff]
  · apply Std.ExtTreeMap.ext_getElem?
    intro id
    rw [hwaiting, hwaiting', if_congr h.mem_iff rfl rfl]

theorem step?_perm (h : ∀ id, (users.getD id []).Perm (rs.users.getD id [])) (s : Sweep) :
    s.step? users = s.step? rs.users := by
  unfold step?
  congr 1
  funext id
  have hd : (users.getD id []).Nodup := (h id).nodup_iff.2 (rs.nodup_users id)
  exact foldl_relieve_perm (h id) hd _

theorem run_perm (h : ∀ id, (users.getD id []).Perm (rs.users.getD id [])) (n : Nat)
    (s : Sweep) : s.run users n = s.run rs.users n := by
  induction n generalizing s with
  | zero => rfl
  | succ n ih =>
    rw [run, run, step?_perm h]
    cases s.step? rs.users with
    | none => rfl
    | some s => exact ih s

end Sweep

theorem ResourceMap.Holds.unique {m m' : ResourceMap} {rs : List Resource} (h : m.Holds rs)
    (h' : m'.Holds rs) : m = m' := by
  apply Std.ExtTreeMap.ext_getElem?
  intro id
  apply Option.ext
  intro r
  exact (h id r).trans (h' id r).symm

/-- The same specification, with its domains listed in another order. -/
structure WorkloadSpec.Rearranges (spec spec' : WorkloadSpec) : Prop where
  domains : spec.networking.domains.Perm spec'.networking.domains
  rest : spec' = { spec with networking.domains := spec'.networking.domains }

theorem WorkloadSpec.Rearranges.symm {spec spec' : WorkloadSpec} (h : spec.Rearranges spec') :
    spec'.Rearranges spec := by
  refine ⟨h.domains.symm, ?_⟩
  rw [h.rest]

namespace ResourceGraph

variable {spec spec' : WorkloadSpec} {overrides overrides' : List Override}
  {rs rs' : List Resource} {g : ResourceGraph}

theorem ofResources_perm (w : String) (h : rs.Perm rs') (hd : (rs.map Resource.id).Nodup) :
    ofResources w rs = ofResources w rs' := by
  have hd' : (rs'.map Resource.id).Nodup := (h.map Resource.id).nodup_iff.1 hd
  obtain ⟨m, hindex, hm⟩ := index_of_nodup hd
  obtain ⟨m', hindex', hm'⟩ := index_of_nodup hd'
  obtain rfl : m = m' := (holds_of_perm hm h).unique hm'
  rw [ofResources_eq w hindex, ofResources_eq w hindex']

theorem resourcesOf_perm (h : spec.Rearranges spec') (edges : List (UInt64 × UInt64)) :
    (resourcesOf spec edges).Perm (resourcesOf spec' edges) := by
  obtain ⟨hdomains, hrest⟩ := h
  rw [hrest]
  exact ((hdomains.flatMap_right _).append_left _).append_right _

theorem buildWith_of_rearranges (hs : spec.Rearranges spec') (ho : overrides.Perm overrides')
    (h : buildWith spec overrides = .ok g) : buildWith spec' overrides' = .ok g := by
  have hcompute : spec'.compute = spec.compute := by rw [hs.rest]
  have htopology : spec'.networking.topology = spec.networking.topology := by rw [hs.rest]
  have hname : spec'.qualifiedName = spec.qualifiedName := by rw [hs.rest]; rfl
  obtain ⟨hn, hd, edges, he, hids, htargets, hg⟩ := buildWith_eq_ok_iff.1 h
  have hperm := resourcesOf_perm hs edges
  have hpermIds := hperm.map Resource.id
  apply buildWith_eq_ok_iff.2
  refine ⟨by rwa [hcompute], ?_, edges, by rwa [hcompute, htopology], ?_, ?_, ?_⟩
  · exact (hs.domains.map String.toLower).nodup_iff.1 hd
  · exact hpermIds.nodup_iff.1 hids
  · intro o hmem
    exact hpermIds.mem_iff.1 (htargets o (ho.mem_iff.2 hmem))
  · have hmap := hperm.map (overlay overrides)
    rw [hname, ← overlay_perm ho, ← ofResources_perm _ hmap (by rwa [map_id_overlay]), hg]

end ResourceGraph

end Multicloud
