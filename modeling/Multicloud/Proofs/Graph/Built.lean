import Multicloud.Graph.Build
import Multicloud.Proofs.Graph.Encoding
import Multicloud.Proofs.Workload.Document
import Std.Data.String.ToNat

namespace Multicloud

open Text (Clean Simple)

namespace ResourceGraph

variable {spec : WorkloadSpec} {r : Resource}

theorem toList_computeNode (spec : WorkloadSpec) (i : UInt64) :
    (computeNode spec i).properties.toList =
      [("index", .int i), ("instance_class", .text spec.compute.instanceClass),
        ("name", .text (displayName spec.name (computeId i))), ("namespace", .text spec.space),
        ("workload", .text spec.name)] := rfl

theorem toList_link (topology : Topology) (a b : UInt64) :
    (link topology a b).properties.toList =
      [("from", .text (computeId a)), ("to", .text (computeId b)),
        ("topology", .text topology.name)] := rfl

theorem toList_route (spec : WorkloadSpec) (waitsFor : TextSet) (d : String) :
    (route spec waitsFor d).properties.toList =
      [("backend", .text (computeId spec.networking.topology.ingressPoint)), ("domain", .text d),
        ("name", .text (displayName spec.name (ingressId d)))] := rfl

theorem toList_record (d : String) :
    (record d).properties.toList =
      [("domain", .text d), ("record_type", .text "CNAME"), ("route", .text (ingressId d))] := rfl

theorem toList_volume (spec : WorkloadSpec) (i : UInt64) :
    (volume spec i).properties.toList =
      [("attached_to", .text (computeId i)), ("index", .int i),
        ("name", .text (displayName spec.name (volumeId i))),
        ("performance_class", .text spec.storage.performanceClass)] := rfl

inductive Made (spec : WorkloadSpec) : Resource → Prop
  | computeNode (i : UInt64) : Made spec (computeNode spec i)
  | link (a b : UInt64) : Made spec (link spec.networking.topology a b)
  | route {waitsFor : TextSet} {d : String} : d ∈ spec.networking.domains →
      computeId spec.networking.topology.ingressPoint ∈ waitsFor →
      (∀ dep ∈ waitsFor, (∃ i, dep = computeId i) ∨ ∃ a b, dep = linkId a b) →
      Made spec (route spec waitsFor d)
  | record {d : String} : d ∈ spec.networking.domains → Made spec (record d)
  | volume (i : UInt64) : spec.storage.persistent = true → Made spec (volume spec i)

theorem mem_textSet_of {s : String} {items : List String} : s ∈ TextSet.of items ↔ s ∈ items := by
  simp [TextSet.of, Std.ExtTreeSet.mem_ofList]

theorem made_of_mem {edges : List (UInt64 × UInt64)} (h : r ∈ resourcesOf spec edges) :
    Made spec r := by
  simp only [resourcesOf, List.mem_append, List.mem_map, List.mem_flatMap, List.mem_cons,
    List.not_mem_nil, or_false] at h
  obtain ((⟨i, -, rfl⟩ | ⟨e, -, rfl⟩) | ⟨d, hd, rfl | rfl⟩) | h := h
  · exact .computeNode i
  · exact .link e.1 e.2
  · refine .route hd ?_ fun dep hdep ↦ ?_
    · exact mem_textSet_of.2 (.head _)
    · rcases List.mem_cons.1 (mem_textSet_of.1 hdep) with rfl | hdep
      · exact .inl ⟨_, rfl⟩
      · obtain ⟨⟨a, b⟩, -, he⟩ := List.mem_filterMap.1 hdep
        dsimp only at he
        split at he
        · exact .inr ⟨a, b, (Option.some.inj he).symm⟩
        · cases he
  · exact .record hd
  · split at h
    · next hp =>
      obtain ⟨i, -, rfl⟩ := List.mem_map.1 h
      exact .volume i hp
    · cases h

theorem zero_mem_upTo {n : UInt64} (h : n ≠ 0) : 0 ∈ Topology.upTo 0 n := by
  have h : n.toNat ≠ 0 := fun he ↦ h (UInt64.toNat_inj.1 he)
  refine List.mem_map.2 ⟨0, ?_, rfl⟩
  simp
  omega

theorem of_build_eq_ok {g : ResourceGraph} (h : build spec = .ok g) :
    g.Accepted ∧ g.workload = spec.qualifiedName ∧ (∀ r ∈ g.resources, Made spec r) ∧
      computeNode spec 0 ∈ g.resources ∧
      (spec.storage.persistent = true → volume spec 0 ∈ g.resources) := by
  unfold build buildWith at h
  by_cases hnodes : spec.compute.nodes = 0
  · rw [if_pos hnodes] at h
    cases h
  rw [if_neg hnodes] at h
  dsimp only at h
  split at h
  · cases h
  obtain ⟨edges, -, h⟩ := bind_eq_ok.1 h
  obtain ⟨rs, hrs, h⟩ := bind_eq_ok.1 h
  cases hrs
  obtain ⟨hw, -, -, -, hperm, -⟩ := of_ofResources_eq_ok h
  have hzero := zero_mem_upTo hnodes
  refine ⟨⟨_, _, h⟩, hw, fun r hr ↦ made_of_mem (hperm.mem_iff.1 hr), ?_, fun hp ↦ ?_⟩
  · refine hperm.mem_iff.2 ?_
    simp only [resourcesOf, List.mem_append]
    exact .inl (.inl (.inl (List.mem_map_of_mem hzero)))
  · refine hperm.mem_iff.2 ?_
    simp only [resourcesOf, List.mem_append, hp]
    exact .inr (List.mem_map_of_mem hzero)

theorem simple_computeId (i : UInt64) : Simple (computeId i).toList := by
  rw [computeId, String.toList_append]
  exact Simple.append (by decide) (Text.simple_repr _)

theorem clean_computeId (i : UInt64) : Clean (computeId i).toList := (simple_computeId i).clean

theorem simple_volumeId (i : UInt64) : Simple (volumeId i).toList := by
  rw [volumeId, String.toList_append]
  exact Simple.append (by decide) (Text.simple_repr _)

theorem clean_volumeId (i : UInt64) : Clean (volumeId i).toList := (simple_volumeId i).clean

theorem simple_linkId (a b : UInt64) : Simple (linkId a b).toList := by
  simp only [linkId, String.toList_append]
  exact (((by decide : Simple "link-".toList).append (Text.simple_repr _)).append
    (by decide)).append (Text.simple_repr _)

theorem simple_ingressId {d : String} (h : Simple d.toList) : Simple (ingressId d).toList := by
  rw [ingressId, String.toList_append]
  exact Simple.append (by decide) h

theorem simple_dnsId {d : String} (h : Simple d.toList) : Simple (dnsId d).toList := by
  rw [dnsId, String.toList_append]
  exact Simple.append (by decide) h

theorem simple_displayName {w id : String} (hw : Simple w.toList) (hid : Simple id.toList) :
    Simple (displayName w id).toList := by
  simp only [displayName, String.toList_append]
  exact (hw.append (by decide)).append hid

theorem simple_topology (t : Topology) : Simple t.name.toList := by cases t <;> decide

end ResourceGraph

namespace Resource

variable {r : Resource}

theorem plain_of_clean (hid : Clean r.id.toList)
    (hproperties : ∀ e ∈ r.properties.toList, Clean e.1.toList ∧ Clean e.2.display.toList)
    (hdeps : ∀ d ∈ r.dependsOn, d ≠ "" ∧ Clean d.toList) : r.Plain where
  id := hid.not_mem (by decide)
  name e he := (hproperties e he).1.not_mem (by decide)
  value e he := (hproperties e he).2.not_mem (by decide)
  dependency_ne d hd := (hdeps d hd).1
  dependency d hd := (hdeps d hd).2.not_mem (by decide)

/-- The types of the values are known by their names. -/
def Typed (r : Resource) : Prop :=
  ∀ e ∈ r.properties.toList,
    if e.1 = "index" then ∃ n, e.2 = .int n else ∃ s, e.2 = .text s

theorem eq_of_shown_eq {r' : Resource} (ht : r.Typed) (ht' : r'.Typed) (hs : r.shown = r'.shown) :
    r = r' := by
  have hproperties : r.properties = r'.properties := by
    refine Std.ExtTreeMap.toList_inj.1 (Text.eq_of_map_eq ?_ (congrArg (·.2.2.1) hs))
    rintro ⟨k, v⟩ hv ⟨k', v'⟩ hv' h
    obtain ⟨rfl, he⟩ := Prod.mk.inj h
    have hv := ht _ hv
    have hv' := ht' _ hv'
    dsimp only at hv hv' he
    split at hv
    · next hk =>
      rw [if_pos hk] at hv'
      obtain ⟨n, rfl⟩ := hv
      obtain ⟨n', rfl⟩ := hv'
      rw [UInt64.toNat_inj.1 (Nat.repr_injective he)]
    · next hk =>
      rw [if_neg hk] at hv'
      obtain ⟨s, rfl⟩ := hv
      obtain ⟨s', rfl⟩ := hv'
      exact congrArg (Prod.mk k ∘ Property.text) he
  have hid : r.id = r'.id := congrArg Prod.fst hs
  have hkind : r.kind = r'.kind := congrArg (·.2.1) hs
  have hdeps : r.dependsOn = r'.dependsOn :=
    Std.ExtTreeSet.toList_inj.1 (congrArg (·.2.2.2) hs)
  cases r
  cases r'
  congr

end Resource

namespace ResourceGraph

variable {spec : WorkloadSpec} {r : Resource}

theorem Made.typed (h : Made spec r) : r.Typed := by
  cases h with
  | computeNode i => simp [Resource.Typed, toList_computeNode]
  | link a b => simp [Resource.Typed, toList_link]
  | route _ _ _ => simp [Resource.Typed, toList_route]
  | record _ => simp [Resource.Typed, toList_record]
  | volume i _ => simp [Resource.Typed, toList_volume]

theorem Made.simple_id (hv : spec.Valid) (h : Made spec r) : Simple r.id.toList := by
  cases h with
  | computeNode i => exact simple_computeId i
  | link a b => exact simple_linkId a b
  | route hd _ _ => exact simple_ingressId (Text.simple_of_isDomain (hv.domain _ hd))
  | record hd => exact simple_dnsId (Text.simple_of_isDomain (hv.domain _ hd))
  | volume i _ => exact simple_volumeId i

theorem Made.clean_id (hv : spec.Valid) (h : Made spec r) : Clean r.id.toList :=
  (h.simple_id hv).clean

theorem Made.clean_dependency (hv : spec.Valid) (h : Made spec r) :
    ∀ dep ∈ r.dependsOn, dep ≠ "" ∧ Clean dep.toList := by
  have hcompute (i : UInt64) : computeId i ≠ "" ∧ Clean (computeId i).toList :=
    ⟨by simp [computeId], clean_computeId i⟩
  have hlink (a b : UInt64) : linkId a b ≠ "" ∧ Clean (linkId a b).toList :=
    ⟨by simp [linkId], (simple_linkId a b).clean⟩
  intro dep hdep
  cases h with
  | computeNode i => simp [ResourceGraph.computeNode] at hdep
  | link a b =>
    rcases List.mem_pair.1 (mem_textSet_of.1 hdep) with rfl | rfl
    · exact hcompute a
    · exact hcompute b
  | route _ _ h =>
    rcases h dep hdep with ⟨i, rfl⟩ | ⟨a, b, rfl⟩
    · exact hcompute i
    · exact hlink a b
  | @record d hd =>
    rw [List.mem_singleton.1 (mem_textSet_of.1 hdep)]
    exact ⟨by simp [ingressId], (simple_ingressId (Text.simple_of_isDomain (hv.domain _ hd))).clean⟩
  | volume i _ =>
    rw [List.mem_singleton.1 (mem_textSet_of.1 hdep)]
    exact hcompute i

/-- Only the classes of machines and of storage may be any text. -/
theorem Made.simple_property (hv : spec.Valid) (h : Made spec r) :
    ∀ e ∈ r.properties.toList, Simple e.1.toList ∧ (Simple e.2.display.toList ∨
      r.kind = .computeNode ∧ e.2 = .text spec.compute.instanceClass ∨
        r.kind = .volume ∧ e.2 = .text spec.storage.performanceClass) := by
  have hname := Text.simple_of_isLabel hv.name
  have hspace := Text.simple_of_isLabel hv.space
  cases h with
  | computeNode i =>
    simp only [toList_computeNode, List.forall_mem_cons]
    exact ⟨⟨by decide, .inl (Text.simple_repr _)⟩, ⟨by decide, .inr (.inl ⟨rfl, trivial⟩)⟩,
      ⟨by decide, .inl (simple_displayName hname (simple_computeId i))⟩,
      ⟨by decide, .inl hspace⟩, ⟨by decide, .inl hname⟩, by simp⟩
  | link a b =>
    simp only [toList_link, List.forall_mem_cons]
    exact ⟨⟨by decide, .inl (simple_computeId a)⟩, ⟨by decide, .inl (simple_computeId b)⟩,
      ⟨by decide, .inl (simple_topology _)⟩, by simp⟩
  | route hd _ _ =>
    have hd := Text.simple_of_isDomain (hv.domain _ hd)
    simp only [toList_route, List.forall_mem_cons]
    exact ⟨⟨by decide, .inl (simple_computeId _)⟩, ⟨by decide, .inl hd⟩,
      ⟨by decide, .inl (simple_displayName hname (simple_ingressId hd))⟩, by simp⟩
  | record hd =>
    have hd := Text.simple_of_isDomain (hv.domain _ hd)
    simp only [toList_record, List.forall_mem_cons]
    exact ⟨⟨by decide, .inl hd⟩, ⟨by decide, .inl (by decide)⟩,
      ⟨by decide, .inl (simple_ingressId hd)⟩, by simp⟩
  | volume i _ =>
    simp only [toList_volume, List.forall_mem_cons]
    exact ⟨⟨by decide, .inl (simple_computeId i)⟩, ⟨by decide, .inl (Text.simple_repr _)⟩,
      ⟨by decide, .inl (simple_displayName hname (simple_volumeId i))⟩,
      ⟨by decide, .inr (.inr ⟨rfl, trivial⟩)⟩, by simp⟩

theorem Made.plain (hv : spec.Valid) (h : Made spec r)
    (hinstance : r.kind = .computeNode → Clean spec.compute.instanceClass.toList)
    (hstorage : r.kind = .volume → Clean spec.storage.performanceClass.toList) : r.Plain := by
  refine Resource.plain_of_clean (h.clean_id hv) (fun e he ↦ ?_) (h.clean_dependency hv)
  obtain ⟨hkey, hvalue⟩ := h.simple_property hv e he
  refine ⟨hkey.clean, ?_⟩
  rcases hvalue with hvalue | ⟨hkind, hclass⟩ | ⟨hkind, hclass⟩
  · exact hvalue.clean
  · rw [hclass]
    exact hinstance hkind
  · rw [hclass]
    exact hstorage hkind

end ResourceGraph

end Multicloud
