import Multicloud.Graph.Basic
import Multicloud.Proofs.Graph.Sweep

namespace Multicloud

namespace ResourceMap

/-- The map of a list of resources by id. -/
def Holds (m : ResourceMap) (rs : List Resource) : Prop :=
  ∀ (id : String) (r : Resource), m[id]? = some r ↔ r ∈ rs ∧ r.id = id

end ResourceMap

namespace ResourceGraph

/-- Every dependency is the id of a resource of the list. -/
def Resolves (rs : List Resource) : Prop :=
  ∀ r ∈ rs, ∀ dep ∈ r.dependsOn, ∃ r' ∈ rs, r'.id = dep

def Depends (rs : List Resource) (id dep : String) : Prop :=
  ∃ r ∈ rs, r.id = id ∧ dep ∈ r.dependsOn

def Acyclic (rs : List Resource) : Prop := ∀ id, ¬ Relation.TransGen (Depends rs) id id

theorem holds_insert {m : ResourceMap} {rs : List Resource} {r : Resource} (hm : m.Holds rs)
    (hr : r.id ∉ m) : ResourceMap.Holds (m.insert r.id r) (rs ++ [r]) := by
  intro id r'
  rw [Std.ExtTreeMap.getElem?_insert]
  split
  · next he =>
    have he : r.id = id := Std.LawfulEqOrd.eq_of_compare he
    have hnone : m[id]? = none := Std.ExtTreeMap.getElem?_eq_none (he ▸ hr)
    have hold : ¬ (r' ∈ rs ∧ r'.id = id) := fun h ↦ by
      have := (hm id r').2 h
      rw [hnone] at this
      cases this
    simp only [Option.some.injEq, List.mem_append, List.mem_singleton]
    refine ⟨fun h ↦ ⟨.inr h.symm, h ▸ he⟩, fun h ↦ ?_⟩
    exact (h.1.resolve_left fun hmem ↦ hold ⟨hmem, h.2⟩).symm
  · next he =>
    rw [hm]
    have hne : ¬ (r' = r ∧ r'.id = id) := fun ⟨h, h'⟩ ↦ he (by simp [← h', h])
    simp only [List.mem_append, List.mem_singleton, or_and_right, hne, or_false]

def enter (m : ResourceMap) (r : Resource) : Except GraphError ResourceMap :=
  if m.contains r.id then .error (.duplicateIdentifier r.id) else .ok (m.insert r.id r)

theorem foldlM_enter (rs done : List Resource) (m : ResourceMap) (hm : m.Holds done)
    (hd : (done.map Resource.id).Nodup) :
    (∃ m', rs.foldlM enter m = .ok m' ∧ ResourceMap.Holds m' (done ++ rs) ∧
      ((done ++ rs).map Resource.id).Nodup) ∨
    ∃ id, rs.foldlM enter m = .error (.duplicateIdentifier id) ∧
      2 ≤ ((done ++ rs).map Resource.id).count id := by
  induction rs generalizing done m with
  | nil => exact .inl ⟨m, rfl, by simpa using hm, by simpa using hd⟩
  | cons r rs ih =>
    rw [List.foldlM_cons, enter]
    split
    · next hc =>
      refine .inr ⟨r.id, rfl, ?_⟩
      obtain ⟨r', hr'⟩ := ResourceMap.mem_iff_exists.1 (Std.ExtTreeMap.contains_iff_mem.1 hc)
      obtain ⟨hmem, he⟩ := (hm r.id r').1 hr'
      have : 0 < (done.map Resource.id).count r.id :=
        List.count_pos_iff.2 (List.mem_map.2 ⟨r', hmem, he⟩)
      simp only [List.map_append, List.map_cons, List.count_append, List.count_cons_self]
      omega
    · next hc =>
      have hr : r.id ∉ m := fun h ↦ hc (Std.ExtTreeMap.contains_iff_mem.2 h)
      have hnew : r.id ∉ done.map Resource.id := by
        intro h
        obtain ⟨r', hmem, he⟩ := List.mem_map.1 h
        exact hr (ResourceMap.mem_iff_exists.2 ⟨r', (hm _ _).2 ⟨hmem, he⟩⟩)
      have hd' : ((done ++ [r]).map Resource.id).Nodup := by
        rw [List.map_append, List.nodup_append]
        refine ⟨hd, List.nodup_cons.2 ⟨by simp, .nil⟩, ?_⟩
        intro a ha b hb he
        obtain rfl : b = r.id := by simpa using hb
        exact hnew (he ▸ ha)
      have := ih (done ++ [r]) (m.insert r.id r) (holds_insert hm hr) hd'
      rwa [List.append_assoc, List.singleton_append] at this

theorem index_eq (rs : List Resource) :
    (∃ m, index rs = .ok m ∧ m.Holds rs ∧ (rs.map Resource.id).Nodup) ∨
    ∃ id, index rs = .error (.duplicateIdentifier id) ∧ 2 ≤ (rs.map Resource.id).count id :=
  foldlM_enter rs [] ∅ (fun id r ↦ by simp) .nil

section Indexed

variable {m : ResourceMap} {rs : List Resource}

theorem closed_iff (hm : m.Holds rs) : m.Closed ↔ Resolves rs := by
  constructor
  · intro h r hr dep hdep
    obtain ⟨r', hr'⟩ := ResourceMap.mem_iff_exists.1 (h r.id r ((hm _ _).2 ⟨hr, rfl⟩) dep hdep)
    exact ⟨r', (hm _ _).1 hr'⟩
  · intro h id r hr dep hdep
    obtain ⟨r', hmem, he⟩ := h r ((hm _ _).1 hr).1 dep hdep
    exact ResourceMap.mem_iff_exists.2 ⟨r', (hm _ _).2 ⟨hmem, he⟩⟩

theorem waits_iff (hm : m.Holds rs) (id dep : String) : m.Waits id dep ↔ Depends rs id dep := by
  simp only [ResourceMap.Waits, Depends, hm id, and_assoc]

theorem acyclic_iff (hm : m.Holds rs) : m.Acyclic ↔ Acyclic rs := by
  have : m.Waits = Depends rs := funext₂ fun id dep ↦ propext (waits_iff hm id dep)
  rw [ResourceMap.Acyclic, Acyclic, this]

theorem dangling?_eq_none : dangling? m = none ↔ m.Closed := by
  simp only [dangling?, List.findSome?_eq_none_iff, Option.map_eq_none_iff, List.find?_eq_none,
    Prod.forall, Std.ExtTreeMap.mem_toList_iff_getElem?_eq_some, Std.ExtTreeSet.mem_toList,
    Bool.not_eq_true, Bool.not_eq_false', Std.ExtTreeMap.contains_iff_mem, ResourceMap.Closed]

theorem of_dangling?_eq_some {id dep : String} (h : dangling? m = some (id, dep)) :
    ∃ r : Resource, m[id]? = some r ∧ dep ∈ r.dependsOn ∧ dep ∉ m := by
  obtain ⟨⟨id', r⟩, hmem, hfind⟩ := List.exists_of_findSome?_eq_some h
  obtain ⟨dep', hdep, he⟩ := Option.map_eq_some_iff.1 hfind
  obtain ⟨rfl, rfl⟩ := Prod.mk.inj he
  refine ⟨r, Std.ExtTreeMap.mem_toList_iff_getElem?_eq_some.1 hmem,
    Std.ExtTreeSet.mem_toList.1 (List.mem_of_find?_eq_some hdep), fun hmem ↦ ?_⟩
  have := List.find?_some hdep
  simp only [Bool.not_eq_true'] at this
  exact absurd (Std.ExtTreeMap.contains_iff_mem.2 hmem) (by simp [this])

theorem ofResources_eq (w : String) (h : index rs = .ok m) :
    ofResources w rs =
      match dangling? m with
      | some (id, dep) => .error (.danglingDependency id dep)
      | none =>
        if m.sweep.order.length ≠ m.size then .error (.cyclicDependency m.cycleMembers)
        else .ok { workload := w, resources := m.sweep.order.filterMap fun id ↦ m[id]? } := by
  simp only [ofResources, h, bind, Except.bind, throw, throwThe, MonadExceptOf.throw, pure,
    Except.pure]
  cases dangling? m with
  | some d => rfl
  | none => rfl

end Indexed

theorem map_id_filterMap {m : ResourceMap} {rs : List Resource} (hm : m.Holds rs)
    {ids : List String} (h : ∀ id ∈ ids, id ∈ m) :
    (ids.filterMap fun id ↦ m[id]?).map Resource.id = ids := by
  induction ids with
  | nil => rfl
  | cons id ids ih =>
    obtain ⟨r, hr⟩ := ResourceMap.mem_iff_exists.1 (h id (.head _))
    rw [List.filterMap_cons_some hr, List.map_cons, ih fun id hid ↦ h id (.tail _ hid),
      ((hm id r).1 hr).2]

theorem filterMap_perm {m : ResourceMap} {rs : List Resource} (hm : m.Holds rs)
    (hd : (rs.map Resource.id).Nodup) {ids : List String} (h : ids.Perm m.keys) :
    (ids.filterMap fun id ↦ m[id]?).Perm rs := by
  have hmem : ∀ id, id ∈ ids ↔ id ∈ m := fun id ↦
    h.mem_iff.trans Std.ExtTreeMap.mem_keys
  have hids := map_id_filterMap hm fun id hid ↦ (hmem id).1 hid
  have hnodup : ((ids.filterMap fun id ↦ m[id]?).map Resource.id).Nodup := by
    rw [hids]
    exact h.nodup_iff.2 m.nodup_keys
  refine (List.perm_ext_iff_of_nodup (.of_map _ hnodup) (.of_map _ hd)).2 fun r ↦ ?_
  rw [List.mem_filterMap]
  constructor
  · rintro ⟨id, -, hr⟩
    exact ((hm id r).1 hr).1
  · intro hr
    have hr := (hm r.id r).2 ⟨hr, rfl⟩
    exact ⟨r.id, (hmem r.id).2 (ResourceMap.mem_iff_exists.2 ⟨r, hr⟩), hr⟩

theorem holds_of_perm {m : ResourceMap} {rs rs' : List Resource} (hm : m.Holds rs)
    (h : rs.Perm rs') : m.Holds rs' := fun id r ↦ by rw [hm, h.mem_iff]

theorem of_ofResources_eq_ok {w : String} {rs : List Resource} {g : ResourceGraph}
    (h : ofResources w rs = .ok g) :
    g.workload = w ∧ (rs.map Resource.id).Nodup ∧ Resolves rs ∧ Acyclic rs ∧
      g.resources.Perm rs ∧
      ∃ m : ResourceMap, m.Holds g.resources ∧ m.Releases g.ids.reverse := by
  obtain ⟨m, hindex, hm, hd⟩ | ⟨id, hindex, -⟩ := index_eq rs
  · rw [ofResources_eq w hindex] at h
    split at h
    · cases h
    · next hnone =>
      have hc := dangling?_eq_none.1 hnone
      split at h
      · cases h
      · next hlen =>
        have hlen := not_not.1 hlen
        cases h
        have hperm : m.sweep.order.Perm m.keys := (List.reverse_perm _).trans
          (m.releases_sweep.perm_keys (by simpa [Sweep.order] using hlen))
        have hids := map_id_filterMap hm fun id hid ↦
          Std.ExtTreeMap.mem_keys.1 (hperm.subset hid)
        have hrs := filterMap_perm hm hd hperm
        refine ⟨rfl, hd, (closed_iff hm).1 hc, ?_, hrs, m, holds_of_perm hm hrs.symm, ?_⟩
        · exact (acyclic_iff hm).1 ((ResourceMap.length_order_sweep_iff hc).1 hlen)
        · rw [ids, hids, Sweep.order, List.reverse_reverse]
          exact m.releases_sweep
  · simp [ofResources, hindex, bind, Except.bind] at h

def Accepted (g : ResourceGraph) : Prop := ∃ w rs, ofResources w rs = .ok g

theorem Accepted.nodup_ids {g : ResourceGraph} (h : g.Accepted) : g.ids.Nodup := by
  obtain ⟨w, rs, h⟩ := h
  obtain ⟨-, hd, -, -, hperm, -⟩ := of_ofResources_eq_ok h
  exact (hperm.map Resource.id).nodup_iff.2 hd

/-- A resource comes after all it depends on, and before any that could have come in its place but
has a greater id. -/
theorem Accepted.ordered {g : ResourceGraph} (h : g.Accepted) {before after : List Resource}
    {r : Resource} (hg : g.resources = before ++ r :: after) :
    (∀ dep ∈ r.dependsOn, dep ∈ before.map Resource.id) ∧
      ∀ x ∈ after, (∀ dep ∈ x.dependsOn, dep ∈ before.map Resource.id) →
        (compare r.id x.id).isLE := by
  have hnodup := h.nodup_ids
  obtain ⟨w, rs, h⟩ := h
  obtain ⟨-, -, -, -, -, m, hm, hreleases⟩ := of_ofResources_eq_ok h
  have hids : g.ids.reverse =
      (after.map Resource.id).reverse ++ r.id :: (before.map Resource.id).reverse := by
    simp [ids, hg]
  obtain ⟨⟨-, r', hr', hdeps⟩, hleast⟩ := (hids ▸ hreleases).of_append
  obtain ⟨hmem, hid⟩ := (hm _ _).1 hr'
  have hr : r' = r := List.inj_on_of_nodup_map hnodup hmem (by simp [hg]) hid
  refine ⟨fun dep hdep ↦ by simpa using hdeps dep (hr ▸ hdep), fun x hx hready ↦ hleast x.id ?_⟩
  refine ⟨?_, x, (hm _ _).2 ⟨by simp [hg, hx], rfl⟩, by simpa using hready⟩
  intro hbefore
  rw [ids, hg, List.map_append, List.map_cons, List.nodup_append] at hnodup
  exact hnodup.2.2 x.id (by simpa using hbefore) x.id (.tail _ (List.mem_map_of_mem hx)) rfl

theorem index_of_nodup {rs : List Resource} (hd : (rs.map Resource.id).Nodup) :
    ∃ m, index rs = .ok m ∧ m.Holds rs := by
  obtain ⟨m, hindex, hm, -⟩ | ⟨id, -, hcount⟩ := index_eq rs
  · exact ⟨m, hindex, hm⟩
  · have := List.nodup_iff_count_le_one.1 hd id
    omega

theorem ofResources_of_not_nodup (w : String) {rs : List Resource}
    (hd : ¬ (rs.map Resource.id).Nodup) :
    ∃ id, ofResources w rs = .error (.duplicateIdentifier id) ∧
      2 ≤ (rs.map Resource.id).count id := by
  obtain ⟨m, -, -, h⟩ | ⟨id, hindex, hcount⟩ := index_eq rs
  · exact absurd h hd
  · exact ⟨id, by simp [ofResources, hindex, bind, Except.bind], hcount⟩

theorem ofResources_of_not_resolves (w : String) {rs : List Resource}
    (hd : (rs.map Resource.id).Nodup) (hr : ¬ Resolves rs) :
    ∃ r ∈ rs, ∃ dep ∈ r.dependsOn, (∀ r' ∈ rs, r'.id ≠ dep) ∧
      ofResources w rs = .error (.danglingDependency r.id dep) := by
  obtain ⟨m, hindex, hm⟩ := index_of_nodup hd
  cases hdangling : dangling? m with
  | none => exact absurd ((closed_iff hm).1 (dangling?_eq_none.1 hdangling)) hr
  | some d =>
    obtain ⟨r, hmr, hdep, hnot⟩ := of_dangling?_eq_some hdangling
    obtain ⟨hmem, hid⟩ := (hm _ _).1 hmr
    refine ⟨r, hmem, d.2, hdep, fun r' hr' he ↦ hnot ?_, ?_⟩
    · exact ResourceMap.mem_iff_exists.2 ⟨r', (hm _ _).2 ⟨hr', he⟩⟩
    · rw [ofResources_eq w hindex, hdangling, hid]

theorem ofResources_of_resolves (w : String) {rs : List Resource}
    (hd : (rs.map Resource.id).Nodup) (hr : Resolves rs) :
    (Acyclic rs ∧ ∃ g, ofResources w rs = .ok g) ∨
      (¬ Acyclic rs ∧ ∃ members, ofResources w rs = .error (.cyclicDependency members)) := by
  obtain ⟨m, hindex, hm⟩ := index_of_nodup hd
  have hc := (closed_iff hm).2 hr
  rw [ofResources_eq w hindex, dangling?_eq_none.2 hc, ← acyclic_iff hm,
    ← ResourceMap.length_order_sweep_iff hc]
  by_cases hlen : m.sweep.order.length = m.size
  · exact .inl ⟨hlen, _, if_neg (not_not.2 hlen)⟩
  · exact .inr ⟨hlen, _, if_pos hlen⟩

/-- Resources are accepted as they are, each once, when their ids are distinct, their dependencies
resolve and none waits for itself. Otherwise the first of the three that fails is told. -/
theorem ofResources_exact (w : String) (rs : List Resource) :
    ((∃ g, ofResources w rs = .ok g) ↔
      (rs.map Resource.id).Nodup ∧ Resolves rs ∧ Acyclic rs) ∧
    (∀ g, ofResources w rs = .ok g → g.workload = w ∧ g.resources.Perm rs) ∧
    (¬ (rs.map Resource.id).Nodup →
      ∃ id, ofResources w rs = .error (.duplicateIdentifier id) ∧
        2 ≤ (rs.map Resource.id).count id) ∧
    ((rs.map Resource.id).Nodup → ¬ Resolves rs →
      ∃ r ∈ rs, ∃ dep ∈ r.dependsOn, (∀ r' ∈ rs, r'.id ≠ dep) ∧
        ofResources w rs = .error (.danglingDependency r.id dep)) ∧
    ((rs.map Resource.id).Nodup → Resolves rs → ¬ Acyclic rs →
      ∃ members, ofResources w rs = .error (.cyclicDependency members)) := by
  refine ⟨⟨?_, ?_⟩, ?_, ofResources_of_not_nodup w, ofResources_of_not_resolves w, ?_⟩
  · rintro ⟨g, hg⟩
    obtain ⟨-, hd, hr, ha, -⟩ := of_ofResources_eq_ok hg
    exact ⟨hd, hr, ha⟩
  · rintro ⟨hd, hr, ha⟩
    exact ((ofResources_of_resolves w hd hr).resolve_right fun h ↦ h.1 ha).2
  · intro g hg
    obtain ⟨hw, -, -, -, hperm, -⟩ := of_ofResources_eq_ok hg
    exact ⟨hw, hperm⟩
  · intro hd hr ha
    exact ((ofResources_of_resolves w hd hr).resolve_left fun h ↦ ha h.1).2

end ResourceGraph

end Multicloud
