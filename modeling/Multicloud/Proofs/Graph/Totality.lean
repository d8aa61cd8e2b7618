import Mathlib.Data.Set.Insert
import Multicloud.Proofs.Graph.Edges
import Multicloud.Proofs.Graph.Separation

namespace Multicloud.ResourceGraph

open Multicloud.Topology (upTo mem_upTo nodup_upTo length_upTo)

variable {spec : WorkloadSpec} {edges : List (UInt64 × UInt64)} {r r' : Resource}

section Domains

variable {domains : List String} {d : String}

/-- The domain was listed before, in whatever case, and none of those before it was. -/
def FirstRepeated (domains : List String) (d : String) : Prop :=
  ∃ before after, domains = before ++ d :: after ∧ (∃ e ∈ before, e.toLower = d.toLower) ∧
    (before.map String.toLower).Nodup

theorem repeatedDomain?_eq_some_iff (seen : TextSet) :
    repeatedDomain? seen domains = some d ↔
      ∃ before after, domains = before ++ d :: after ∧
        (d.toLower ∈ seen ∨ ∃ e ∈ before, e.toLower = d.toLower) ∧
        (before.map String.toLower).Nodup ∧ ∀ e ∈ before, e.toLower ∉ seen := by
  induction domains generalizing seen with
  | nil => simp [repeatedDomain?]
  | cons x domains ih =>
    rw [repeatedDomain?]
    split
    · next hx =>
      have hx := Std.ExtTreeSet.contains_iff_mem.1 hx
      constructor
      · intro h
        obtain rfl := Option.some.inj h
        exact ⟨[], domains, rfl, .inl hx, .nil, by simp⟩
      · rintro ⟨before, after, h, -, -, hseen⟩
        cases before with
        | nil => exact congrArg some (List.cons.inj h).1
        | cons y before =>
          obtain rfl := (List.cons.inj h).1
          exact absurd hx (hseen x (.head _))
    · next hx =>
      have hx : x.toLower ∉ seen := fun h ↦ hx (Std.ExtTreeSet.contains_iff_mem.2 h)
      simp only [ih, Std.ExtTreeSet.mem_insert, Std.LawfulEqOrd.compare_eq_iff_eq, not_or]
      constructor
      · rintro ⟨before, after, rfl, hd, hn, hseen⟩
        refine ⟨x :: before, after, rfl, ?_, ?_, ?_⟩
        · rcases hd with (he | hd) | ⟨e, he, hd⟩
          · exact .inr ⟨x, .head _, he⟩
          · exact .inl hd
          · exact .inr ⟨e, .tail _ he, hd⟩
        · rw [List.map_cons, List.nodup_cons]
          refine ⟨fun hmem ↦ ?_, hn⟩
          obtain ⟨e, he, hxe⟩ := List.mem_map.1 hmem
          exact (hseen e he).1 hxe.symm
        · exact List.forall_mem_cons.2 ⟨hx, fun e he ↦ (hseen e he).2⟩
      · rintro ⟨before, after, h, hd, hn, hseen⟩
        cases before with
        | nil =>
          obtain ⟨rfl, -⟩ := List.cons.inj h
          rcases hd with hd | ⟨e, he, -⟩
          · exact absurd hd hx
          · cases he
        | cons y before =>
          obtain ⟨rfl, hrest⟩ := List.cons.inj h
          rw [List.map_cons, List.nodup_cons] at hn
          refine ⟨before, after, hrest, ?_, hn.2, fun e he ↦ ⟨fun hxe ↦ ?_, ?_⟩⟩
          · rcases hd with hd | ⟨e, he, hd⟩
            · exact .inl (.inr hd)
            · rcases List.mem_cons.1 he with rfl | he
              · exact .inl (.inl hd)
              · exact .inr ⟨e, he, hd⟩
          · exact hn.1 (hxe ▸ List.mem_map_of_mem he)
          · exact hseen e (.tail _ he)

theorem firstRepeated_iff : FirstRepeated domains d ↔ repeatedDomain? ∅ domains = some d := by
  simp [FirstRepeated, repeatedDomain?_eq_some_iff]

theorem repeatedDomain?_eq_none_iff (seen : TextSet) :
    repeatedDomain? seen domains = none ↔
      (domains.map String.toLower).Nodup ∧ ∀ e ∈ domains, e.toLower ∉ seen := by
  induction domains generalizing seen with
  | nil => simp [repeatedDomain?]
  | cons x domains ih =>
    rw [repeatedDomain?]
    split
    · next hx =>
      have hx := Std.ExtTreeSet.contains_iff_mem.1 hx
      simp [hx]
    · next hx =>
      have hx : x.toLower ∉ seen := fun h ↦ hx (Std.ExtTreeSet.contains_iff_mem.2 h)
      simp only [ih, Std.ExtTreeSet.mem_insert, Std.LawfulEqOrd.compare_eq_iff_eq, not_or,
        List.map_cons, List.nodup_cons, List.forall_mem_cons, List.mem_map, not_exists, not_and]
      constructor
      · rintro ⟨hn, h⟩
        exact ⟨⟨fun e he hxe ↦ (h e he).1 hxe.symm, hn⟩, hx, fun e he ↦ (h e he).2⟩
      · rintro ⟨⟨hfresh, hn⟩, -, h⟩
        exact ⟨hn, fun e he ↦ ⟨fun hxe ↦ hfresh e he hxe.symm, h e he⟩⟩

theorem nodup_domains (h : repeatedDomain? ∅ domains = none) : domains.Nodup :=
  ((repeatedDomain?_eq_none_iff ∅).1 h).1.of_map

end Domains

section Ids

theorem Made.kind_eq_of_id_eq (h : Made spec r) (h' : Made spec r') (he : r.id = r'.id) :
    r.kind = r'.kind := h.kind_eq he h'.head_id

theorem linkId_inj {a b a' b' : UInt64} (h : linkId a b = linkId a' b') : a = a' ∧ b = b' := by
  have hminus (n : Nat) : '-' ∉ (Nat.repr n).toList := fun hmem ↦
    absurd (Text.isDigit_of_mem_repr hmem) (by decide)
  simp only [linkId, ← String.toList_inj, String.toList_append, List.append_assoc] at h
  obtain ⟨ha, hb⟩ := Text.append_cons_inj (hminus _) (hminus _) (List.append_cancel_left h)
  have hinj {i j : UInt64} (h : (Nat.repr i.toNat).toList = (Nat.repr j.toNat).toList) : i = j :=
    UInt64.toNat_inj.1 (Nat.repr_inj.1 (String.toList_inj.1 h))
  exact ⟨hinj ha, hinj hb⟩

theorem ingressId_inj {d d' : String} : ingressId d = ingressId d' ↔ d = d' :=
  String.append_right_inj _

theorem dnsId_inj {d d' : String} : dnsId d = dnsId d' ↔ d = d' := String.append_right_inj _

theorem ingressId_ne_dnsId (d d' : String) : ingressId d ≠ dnsId d' := by
  intro h
  have hhead := congrArg (fun s : String ↦ s.toList.head?) h
  simp [ingressId, dnsId] at hhead

theorem nodup_ids_append (spec : WorkloadSpec) {rs rs' : List Resource}
    (hd : (rs.map Resource.id).Nodup) (hd' : (rs'.map Resource.id).Nodup)
    (hmade : ∀ r ∈ rs ++ rs', Made spec r) (hkind : ∀ r ∈ rs, ∀ r' ∈ rs', r.kind ≠ r'.kind) :
    ((rs ++ rs').map Resource.id).Nodup := by
  rw [List.map_append, List.nodup_append]
  refine ⟨hd, hd', ?_⟩
  simp only [List.mem_map]
  rintro _ ⟨r, hr, rfl⟩ _ ⟨r', hr', rfl⟩ he
  have h := hmade r (List.mem_append_left _ hr)
  have h' := hmade r' (List.mem_append_right _ hr')
  exact hkind r hr r' hr' (h.kind_eq_of_id_eq h' he)

theorem nodup_ids_domains {domains : List String} (hd : domains.Nodup) (spec : WorkloadSpec)
    (waitsFor : TextSet) :
    ((domains.flatMap fun d ↦ [route spec waitsFor d, record d]).map Resource.id).Nodup := by
  have hmap : (domains.flatMap fun d ↦ [route spec waitsFor d, record d]).map Resource.id =
      domains.flatMap fun d ↦ [ingressId d, dnsId d] := List.map_flatMap
  rw [hmap, List.nodup_flatMap]
  refine ⟨fun d _ ↦ by simpa using ingressId_ne_dnsId d d, hd.imp fun {d d'} hne id h h' ↦ ?_⟩
  rcases List.mem_pair.1 h with rfl | rfl <;> rcases List.mem_pair.1 h' with he | he
  · exact hne (ingressId_inj.1 he)
  · exact ingressId_ne_dnsId d d' he
  · exact ingressId_ne_dnsId d' d he.symm
  · exact hne (dnsId_inj.1 he)

theorem nodup_ids_resourcesOf (hd : spec.networking.domains.Nodup) (he : edges.Nodup) :
    ((resourcesOf spec edges).map Resource.id).Nodup := by
  have hmade : ∀ r ∈ resourcesOf spec edges, Made spec r := fun r ↦ made_of_mem
  have hnodes := nodup_upTo 0 spec.compute.nodes
  unfold resourcesOf at hmade ⊢
  dsimp only at hmade ⊢
  have hmachines : (((upTo 0 spec.compute.nodes).map (computeNode spec)).map
      Resource.id).Nodup := by
    rw [List.map_map]
    exact hnodes.map fun i j h ↦ computeId_inj.1 h
  have hlinks : ((edges.map fun e ↦ link spec.networking.topology e.1 e.2).map
      Resource.id).Nodup := by
    rw [List.map_map]
    refine he.map fun e e' h ↦ ?_
    obtain ⟨ha, hb⟩ := linkId_inj h
    exact Prod.ext ha hb
  have hvolumes : ((if spec.storage.persistent then
      (upTo 0 spec.compute.nodes).map (volume spec) else []).map Resource.id).Nodup := by
    split
    · rw [List.map_map]
      exact hnodes.map fun i j h ↦ volumeId_inj.1 h
    · exact .nil
  refine nodup_ids_append spec (nodup_ids_append spec (nodup_ids_append spec hmachines hlinks
    (fun r hr ↦ ?_) ?_) (nodup_ids_domains hd spec _) (fun r hr ↦ ?_) ?_) hvolumes hmade ?_
  · exact hmade r (List.mem_append_left _ (List.mem_append_left _ hr))
  · simp only [List.mem_map]
    rintro _ ⟨i, -, rfl⟩ _ ⟨e, -, rfl⟩
    simp [computeNode, link]
  · exact hmade r (List.mem_append_left _ hr)
  · simp only [List.mem_append, List.mem_map, List.mem_flatMap, List.mem_pair]
    rintro _ (⟨i, -, rfl⟩ | ⟨e, -, rfl⟩) _ ⟨d, -, rfl | rfl⟩ <;>
      simp [computeNode, link, route, record]
  · simp only [List.mem_append, List.mem_map, List.mem_flatMap, List.mem_pair]
    intro r hr r' hr'
    split at hr'
    · obtain ⟨i, -, rfl⟩ := List.mem_map.1 hr'
      obtain (⟨i, -, rfl⟩ | ⟨e, -, rfl⟩) | ⟨d, -, rfl | rfl⟩ := hr <;>
        simp [computeNode, link, route, record, volume]
    · cases hr'

end Ids

section Dependencies

theorem ingressPoint_eq (t : Topology) : t.ingressPoint = 0 := by cases t <;> rfl

theorem mem_ingressDependencies {t : Topology} {dep : String} :
    dep ∈ ingressDependencies t edges ↔
      dep = computeId 0 ∨ ∃ a b, (a, b) ∈ edges ∧ (a = 0 ∨ b = 0) ∧ dep = linkId a b := by
  simp only [ingressDependencies, mem_textSet_of, List.mem_cons, List.mem_filterMap,
    ingressPoint_eq, Prod.exists, Bool.or_eq_true, beq_iff_eq]
  refine or_congr_right (exists₂_congr fun a b ↦ and_congr_right fun _ ↦ ?_)
  split
  · next h => simp [h, eq_comm]
  · next h => simp [h]

theorem mem_resourcesOf : r ∈ resourcesOf spec edges ↔
    (∃ i < spec.compute.nodes, r = computeNode spec i) ∨
    (∃ a b, (a, b) ∈ edges ∧ r = link spec.networking.topology a b) ∨
    (∃ d ∈ spec.networking.domains,
      r = route spec (ingressDependencies spec.networking.topology edges) d ∨ r = record d) ∨
    (spec.storage.persistent = true ∧ ∃ i < spec.compute.nodes, r = volume spec i) := by
  have hvolumes : r ∈ (if spec.storage.persistent then
      (upTo 0 spec.compute.nodes).map (volume spec) else []) ↔
      spec.storage.persistent = true ∧ ∃ i < spec.compute.nodes, r = volume spec i := by
    split
    · next h => simp [h, mem_upTo, eq_comm]
    · next h => simp [h]
  simp only [resourcesOf, List.mem_append, hvolumes, List.mem_map, List.mem_flatMap,
    List.mem_pair, mem_upTo, Prod.exists, UInt64.zero_le, true_and, or_assoc, eq_comm (b := r)]

theorem resolves_resourcesOf (hn : spec.compute.nodes ≠ 0)
    (hends : ∀ a b, (a, b) ∈ edges → a < spec.compute.nodes ∧ b < spec.compute.nodes) :
    Resolves (resourcesOf spec edges) := by
  have hzero : 0 < spec.compute.nodes := UInt64.pos_iff_ne_zero.2 hn
  have hcompute {i : UInt64} (hi : i < spec.compute.nodes) :
      ∃ r ∈ resourcesOf spec edges, r.id = computeId i :=
    ⟨computeNode spec i, mem_resourcesOf.2 (.inl ⟨i, hi, rfl⟩), rfl⟩
  intro r hr dep hdep
  obtain ⟨i, -, rfl⟩ | ⟨a, b, he, rfl⟩ | ⟨d, hd, rfl | rfl⟩ | ⟨-, i, hi, rfl⟩ :=
    mem_resourcesOf.1 hr
  · simp [computeNode] at hdep
  · rcases List.mem_pair.1 (mem_textSet_of.1 hdep) with rfl | rfl
    · exact hcompute (hends a b he).1
    · exact hcompute (hends a b he).2
  · obtain rfl | ⟨a, b, he, -, rfl⟩ := mem_ingressDependencies.1 hdep
    · exact hcompute hzero
    · exact ⟨link spec.networking.topology a b,
        mem_resourcesOf.2 (.inr (.inl ⟨a, b, he, rfl⟩)), rfl⟩
  · obtain rfl := List.mem_singleton.1 (mem_textSet_of.1 hdep)
    exact ⟨_, mem_resourcesOf.2 (.inr (.inr (.inl ⟨d, hd, .inl rfl⟩))), rfl⟩
  · obtain rfl := List.mem_singleton.1 (mem_textSet_of.1 hdep)
    exact hcompute hi

theorem acyclic_of_rank {rs : List Resource} (rank : String → Nat)
    (h : ∀ r ∈ rs, ∀ dep ∈ r.dependsOn, rank dep < rank r.id) : Acyclic rs := by
  have hstep {id dep : String} (hw : Depends rs id dep) : rank dep < rank id := by
    obtain ⟨r, hr, rfl, hdep⟩ := hw
    exact h r hr dep hdep
  have hpath {id dep : String} (hw : Relation.TransGen (Depends rs) id dep) :
      rank dep < rank id := by
    induction hw with
    | single hw => exact hstep hw
    | tail _ hw ih => exact Nat.lt_trans (hstep hw) ih
  intro id hw
  exact Nat.lt_irrefl _ (hpath hw)

/-- Machines come first, then what joins or is attached to them, then routes, then records. -/
def rank (id : String) : Nat :=
  match id.toList.head? with
  | some 'c' => 0
  | some 'i' => 2
  | some 'd' => 3
  | _ => 1

theorem Made.rank_lt (h : Made spec r) {dep : String} (hdep : dep ∈ r.dependsOn) :
    rank dep < rank r.id := by
  have hcompute (i : UInt64) : rank (computeId i) = 0 := by simp [rank, computeId]
  have hlink (a b : UInt64) : rank (linkId a b) = 1 := by simp [rank, linkId]
  have hingress (d : String) : rank (ingressId d) = 2 := by simp [rank, ingressId]
  have hdns (d : String) : rank (dnsId d) = 3 := by simp [rank, dnsId]
  have hvolume (i : UInt64) : rank (volumeId i) = 1 := by simp [rank, volumeId]
  cases h with
  | computeNode i => simp [ResourceGraph.computeNode] at hdep
  | link a b =>
    have hr : rank (ResourceGraph.link spec.networking.topology a b).id = 1 := hlink a b
    rcases List.mem_pair.1 (mem_textSet_of.1 hdep) with rfl | rfl <;> simp [hr, hcompute]
  | @route waitsFor d _ _ hwaits =>
    have hr : rank (ResourceGraph.route spec waitsFor d).id = 2 := hingress d
    rcases hwaits dep hdep with ⟨i, rfl⟩ | ⟨a, b, rfl⟩ <;> simp [hr, hcompute, hlink]
  | @record d _ =>
    have hr : rank (ResourceGraph.record d).id = 3 := hdns d
    rw [List.mem_singleton.1 (mem_textSet_of.1 hdep), hr, hingress]
    decide
  | volume i _ =>
    have hr : rank (ResourceGraph.volume spec i).id = 1 := hvolume i
    rw [List.mem_singleton.1 (mem_textSet_of.1 hdep), hr, hcompute]
    decide

end Dependencies

theorem buildWith_eq (spec : WorkloadSpec) (overrides : List Override) :
    buildWith spec overrides =
      if spec.compute.nodes = 0 then .error .emptyCompute
      else match repeatedDomain? ∅ spec.networking.domains with
        | some d => .error (.duplicateDomain d)
        | none =>
          match spec.networking.topology.edges spec.compute.nodes with
          | .error e => .error e
          | .ok edges =>
            match addDependencies (resourcesOf spec edges) overrides with
            | .error e => .error e
            | .ok rs => ofResources spec.qualifiedName rs := by
  unfold buildWith
  by_cases hn : spec.compute.nodes = 0
  · rw [if_pos hn, if_pos hn]
    rfl
  · rw [if_neg hn, if_neg hn]
    cases repeatedDomain? ∅ spec.networking.domains with
    | some d => rfl
    | none =>
      cases spec.networking.topology.edges spec.compute.nodes with
      | error e => rfl
      | ok edges =>
        change (addDependencies (resourcesOf spec edges) overrides >>=
          ofResources spec.qualifiedName) =
            match addDependencies (resourcesOf spec edges) overrides with
            | .error e => .error e
            | .ok rs => ofResources spec.qualifiedName rs
        cases addDependencies (resourcesOf spec edges) overrides <;> rfl

theorem build_eq (spec : WorkloadSpec) :
    build spec =
      if spec.compute.nodes = 0 then .error .emptyCompute
      else match repeatedDomain? ∅ spec.networking.domains with
        | some d => .error (.duplicateDomain d)
        | none =>
          match spec.networking.topology.edges spec.compute.nodes with
          | .error e => .error e
          | .ok edges => ofResources spec.qualifiedName (resourcesOf spec edges) :=
  buildWith_eq spec []

theorem exists_of_edges_eq_ok (hn : spec.compute.nodes ≠ 0)
    (hd : repeatedDomain? ∅ spec.networking.domains = none)
    (he : spec.networking.topology.edges spec.compute.nodes = .ok edges) :
    ∃ g, build spec = .ok g ∧ g.workload = spec.qualifiedName ∧ g.ids.Nodup ∧
      g.resources.Perm (resourcesOf spec edges) := by
  obtain ⟨hedges, -, hlinks⟩ := Topology.edges_eq_ok he
  have hids := nodup_ids_resourcesOf (nodup_domains hd) hedges
  have hresolves : Resolves (resourcesOf spec edges) := by
    refine resolves_resourcesOf hn fun a b hab ↦ ?_
    obtain ⟨hlt, hb, -⟩ := (hlinks a b).1 hab
    exact ⟨UInt64.lt_trans hlt hb, hb⟩
  have hacyclic : Acyclic (resourcesOf spec edges) :=
    acyclic_of_rank rank fun r hr dep hdep ↦ (made_of_mem hr).rank_lt hdep
  obtain ⟨-, g, hg⟩ := (ofResources_of_resolves spec.qualifiedName hids hresolves).resolve_right
    fun h ↦ h.1 hacyclic
  obtain ⟨hw, -, -, -, hperm, -⟩ := of_ofResources_eq_ok hg
  refine ⟨g, ?_, hw, (hperm.map Resource.id).nodup_iff.2 hids, hperm⟩
  rw [build_eq, if_neg hn, hd, he]
  exact hg

/-- What a specification asks for: ids and kinds, and on what each waits. -/
inductive Asked (spec : WorkloadSpec) : String → Kind → Set String → Prop
  | computeNode {i : UInt64} : i < spec.compute.nodes → Asked spec (computeId i) .computeNode ∅
  | link {a b : UInt64} : spec.networking.topology.Links spec.compute.nodes a b →
      Asked spec (linkId a b) .networkLink {computeId a, computeId b}
  | route {d : String} : d ∈ spec.networking.domains →
      Asked spec (ingressId d) .ingressRoute
        {dep | dep = computeId 0 ∨ ∃ a b, spec.networking.topology.Links spec.compute.nodes a b ∧
          (a = 0 ∨ b = 0) ∧ dep = linkId a b}
  | record {d : String} : d ∈ spec.networking.domains →
      Asked spec (dnsId d) .dnsRecord {ingressId d}
  | volume {i : UInt64} : spec.storage.persistent = true → i < spec.compute.nodes →
      Asked spec (volumeId i) .volume {computeId i}

theorem setOf_mem_singleton (x : String) : {dep | dep ∈ TextSet.of [x]} = ({x} : Set String) := by
  ext dep
  exact mem_textSet_of.trans List.mem_singleton

theorem setOf_mem_pair (x y : String) :
    {dep | dep ∈ TextSet.of [x, y]} = ({x, y} : Set String) := by
  ext dep
  exact mem_textSet_of.trans List.mem_pair

theorem asked_iff (hlinks : ∀ a b, (a, b) ∈ edges ↔
      spec.networking.topology.Links spec.compute.nodes a b)
    (id : String) (k : Kind) (deps : Set String) :
    Asked spec id k deps ↔
      ∃ r ∈ resourcesOf spec edges, r.id = id ∧ r.kind = k ∧ {dep | dep ∈ r.dependsOn} = deps := by
  have hnone (i : UInt64) : {dep | dep ∈ (computeNode spec i).dependsOn} = ∅ := by
    simp [computeNode]
  have hroute (d : String) : {dep | dep ∈ (route spec
      (ingressDependencies spec.networking.topology edges) d).dependsOn} =
      {dep | dep = computeId 0 ∨ ∃ a b, spec.networking.topology.Links spec.compute.nodes a b ∧
        (a = 0 ∨ b = 0) ∧ dep = linkId a b} := by
    ext dep
    simp only [Set.mem_ofPred_eq, route, mem_ingressDependencies, hlinks]
  constructor
  · intro h
    cases h with
    | @computeNode i hi => exact ⟨_, mem_resourcesOf.2 (.inl ⟨i, hi, rfl⟩), rfl, rfl, hnone i⟩
    | @link a b hab =>
      refine ⟨_, mem_resourcesOf.2 (.inr (.inl ⟨a, b, ?_, rfl⟩)), rfl, rfl, setOf_mem_pair _ _⟩
      exact (hlinks a b).2 hab
    | @route d hd =>
      exact ⟨_, mem_resourcesOf.2 (.inr (.inr (.inl ⟨d, hd, .inl rfl⟩))), rfl, rfl, hroute d⟩
    | @record d hd =>
      exact ⟨_, mem_resourcesOf.2 (.inr (.inr (.inl ⟨d, hd, .inr rfl⟩))), rfl, rfl,
        setOf_mem_singleton _⟩
    | @volume i hp hi =>
      exact ⟨_, mem_resourcesOf.2 (.inr (.inr (.inr ⟨hp, i, hi, rfl⟩))), rfl, rfl,
        setOf_mem_singleton _⟩
  · rintro ⟨r, hr, rfl, rfl, rfl⟩
    obtain ⟨i, hi, rfl⟩ | ⟨a, b, he, rfl⟩ | ⟨d, hd, rfl | rfl⟩ | ⟨hp, i, hi, rfl⟩ :=
      mem_resourcesOf.1 hr
    · rw [hnone]
      exact .computeNode hi
    · have h := Asked.link ((hlinks a b).1 he)
      rwa [← setOf_mem_pair] at h
    · rw [hroute]
      exact .route hd
    · have h := Asked.record hd
      rwa [← setOf_mem_singleton] at h
    · have h := Asked.volume hp hi
      rwa [← setOf_mem_singleton] at h

theorem length_resourcesOf (spec : WorkloadSpec) (edges : List (UInt64 × UInt64)) :
    (resourcesOf spec edges).length =
      spec.compute.nodes.toNat + edges.length + 2 * spec.networking.domains.length +
        if spec.storage.persistent then spec.compute.nodes.toNat else 0 := by
  have hnodes : (upTo 0 spec.compute.nodes).length = spec.compute.nodes.toNat := length_upTo _ _
  have hdomains (waitsFor : TextSet) : (spec.networking.domains.flatMap fun d ↦
      [route spec waitsFor d, record d]).length = 2 * spec.networking.domains.length := by
    rw [List.length_flatMap, Nat.mul_comm]
    simp
  simp only [resourcesOf, List.length_append, List.length_map, hnodes, hdomains]
  split <;> simp [hnodes]

/-- A specification is refused for having no machine, a domain twice or a ring that is too small, in
this order. Any other has a graph of just what it asks for. -/
theorem build_exact (spec : WorkloadSpec) :
    (spec.compute.nodes = 0 → build spec = .error .emptyCompute) ∧
    (spec.compute.nodes ≠ 0 → ∀ d, FirstRepeated spec.networking.domains d →
      build spec = .error (.duplicateDomain d)) ∧
    (spec.compute.nodes ≠ 0 → (∀ d, ¬ FirstRepeated spec.networking.domains d) →
      (spec.networking.topology = .ring ∧ spec.compute.nodes < 3 →
        ∃ reason, build spec =
          .error (.unsupportedTopology Topology.ring.name spec.compute.nodes reason)) ∧
      (¬ (spec.networking.topology = .ring ∧ spec.compute.nodes < 3) →
        ∃ g, build spec = .ok g ∧ g.workload = spec.qualifiedName ∧ g.ids.Nodup ∧
          (∀ id k deps, Asked spec id k deps ↔
            ∃ r ∈ g.resources, r.id = id ∧ r.kind = k ∧ {dep | dep ∈ r.dependsOn} = deps) ∧
          g.size = spec.compute.nodes.toNat +
            spec.networking.topology.linkCount spec.compute.nodes.toNat +
            2 * spec.networking.domains.length +
            if spec.storage.persistent then spec.compute.nodes.toNat else 0)) := by
  refine ⟨fun hn ↦ ?_, fun hn d hd ↦ ?_, fun hn hd ↦ ?_⟩
  · rw [build_eq, if_pos hn]
  · rw [build_eq, if_neg hn, firstRepeated_iff.1 hd]
  have hd : repeatedDomain? ∅ spec.networking.domains = none := by
    rw [Option.eq_none_iff_forall_ne_some]
    intro d h
    exact hd d (firstRepeated_iff.2 h)
  refine ⟨fun hring ↦ ?_, fun hring ↦ ?_⟩
  · have he := Topology.edges_eq_error_iff.2 ⟨hring.1, hring.2, rfl⟩
    exact ⟨_, by rw [build_eq, if_neg hn, hd, he]⟩
  · cases he : spec.networking.topology.edges spec.compute.nodes with
    | error e =>
      obtain ⟨ht, hlt, -⟩ := Topology.edges_eq_error_iff.1 he
      exact absurd ⟨ht, hlt⟩ hring
    | ok edges =>
      obtain ⟨-, hlength, hlinks⟩ := Topology.edges_eq_ok he
      obtain ⟨g, hg, hw, hids, hperm⟩ := exists_of_edges_eq_ok hn hd he
      refine ⟨g, hg, hw, hids, fun id k deps ↦ ?_, ?_⟩
      · rw [asked_iff hlinks]
        exact exists_congr fun r ↦ and_congr_left fun _ ↦ hperm.mem_iff.symm
      · rw [size, hperm.length_eq, length_resourcesOf, hlength]

end Multicloud.ResourceGraph
