import Mathlib.Data.List.Permutation
import Multicloud.Proofs.Graph.Acceptance
import Multicloud.Verification
import Std.Data.TreeMap.Iterator

namespace Multicloud

theorem exists_split_of_nodup_flatMap {α β : Type} [BEq β] [LawfulBEq β] {f : α → List β}
    {l : List α} {b : β} (h : (l.flatMap f).Nodup) (hb : b ∈ l.flatMap f) :
    ∃ early a late, l = early ++ a :: late ∧ (f a).count b = 1 ∧ ∀ c ∈ early ++ late, b ∉ f c := by
  obtain ⟨a, ha, hba⟩ := List.mem_flatMap.1 hb
  obtain ⟨early, late, rfl⟩ := List.append_of_mem ha
  rw [List.flatMap_append, List.flatMap_cons, List.nodup_append, List.nodup_append] at h
  obtain ⟨-, ⟨hown, -, hlate⟩, hearly⟩ := h
  refine ⟨early, a, late, rfl, List.count_eq_one_of_mem hown hba, fun c hc hbc ↦ ?_⟩
  rcases List.mem_append.1 hc with hc | hc
  · exact hearly b (List.mem_flatMap.2 ⟨c, hc, hbc⟩) b (List.mem_append_left _ hba) rfl
  · exact hlate b hba b (List.mem_flatMap.2 ⟨c, hc, hbc⟩) rfl

namespace Assertion

variable {placed : List (Resource × Nat)} {k : Kind} {check : Check} {state : String}
  {e : Nat × Assertion}

/-- What an assertion among the resources at these places is about. -/
structure Stands (placed : List (Resource × Nat)) (e : Nat × Assertion) : Prop where
  members : ∃ r rest, ((r, e.1) :: rest).Sublist placed ∧
    e.2.resources = ((r, e.1) :: rest).map (fun x ↦ x.1.id) ∧
    ∀ x ∈ (r, e.1) :: rest, x.1.kind = e.2.kind
  observable : e.2.kind ≠ .networkLink
  expectedCount : e.2.expectedCount = e.2.resources.length
  alone : e.2.kind = .ingressRoute ∨ e.2.kind = .dnsRecord →
    ∃ r, (r, e.1) ∈ placed ∧ e.2.resources = [r.id] ∧
      e.2.endpoint = r.properties["domain"]?.bind Property.text?

theorem counted_eq_nil (h : placed.filter (fun x ↦ x.1.kind == k) = []) :
    counted placed k check state = [] := by
  rw [counted, h]

theorem counted_eq_cons {r : Resource} {first : Nat} {rest : List (Resource × Nat)}
    (h : placed.filter (fun x ↦ x.1.kind == k) = (r, first) :: rest) :
    counted placed k check state = [(first,
      { kind := k, check, expectedCount := rest.length + 1, expectedState := state
        endpoint := none, resources := ((r, first) :: rest).map fun x ↦ x.1.id })] := by
  rw [counted, h]
  simp

theorem length_counted_le (placed : List (Resource × Nat)) (k : Kind) (check : Check)
    (state : String) : (counted placed k check state).length ≤ 1 := by
  cases h : placed.filter (fun x ↦ x.1.kind == k) with
  | nil => simp [counted_eq_nil h]
  | cons x rest => simp [counted_eq_cons h]

theorem flatMap_counted : (counted placed k check state).flatMap (fun e ↦ e.2.resources) =
    (placed.filter (fun x ↦ x.1.kind == k)).map fun x ↦ x.1.id := by
  cases h : placed.filter (fun x ↦ x.1.kind == k) with
  | nil => rw [counted_eq_nil h]; rfl
  | cons x rest => rw [counted_eq_cons h, List.flatMap_singleton]

theorem stands_of_mem_counted (hk : k = .computeNode ∨ k = .volume)
    (he : e ∈ counted placed k check state) : e.2.kind = k ∧ Stands placed e := by
  cases h : placed.filter (fun x ↦ x.1.kind == k) with
  | nil =>
    rw [counted_eq_nil h] at he
    cases he
  | cons x rest =>
    obtain ⟨r, first⟩ := x
    rw [counted_eq_cons h] at he
    obtain rfl := List.mem_singleton.1 he
    refine ⟨rfl, ⟨⟨r, rest, h ▸ List.filter_sublist, rfl, fun x hx ↦ ?_⟩, ?_, by simp, ?_⟩⟩
    · rw [← h] at hx
      simpa using (List.mem_filter.1 hx).2
    · rcases hk with rfl | rfl <;> exact nofun
    · rcases hk with rfl | rfl <;> exact nofun

def own (placed : List (Resource × Nat)) : List (Nat × Assertion) :=
  placed.filterMap fun (r, i) ↦ (ofResource? r).map fun a ↦ (i, a)

theorem ofResource?_eq_some {r : Resource} {a : Assertion} (h : ofResource? r = some a) :
    (r.kind = .ingressRoute ∨ r.kind = .dnsRecord) ∧ a.kind = r.kind ∧ a.expectedCount = 1 ∧
      a.resources = [r.id] ∧ a.endpoint = r.properties["domain"]?.bind Property.text? := by
  unfold ofResource? at h
  split at h
  · next hk => cases h; exact ⟨.inl hk, rfl, rfl, rfl, rfl⟩
  · next hk => cases h; exact ⟨.inr hk, rfl, rfl, rfl, rfl⟩
  all_goals cases h

theorem isSome_ofResource? (r : Resource) :
    (ofResource? r).isSome = (r.kind == .ingressRoute || r.kind == .dnsRecord) := by
  unfold ofResource?
  cases r.kind <;> rfl

theorem mem_own : e ∈ own placed ↔ ∃ r, (r, e.1) ∈ placed ∧ ofResource? r = some e.2 := by
  obtain ⟨i, a⟩ := e
  simp only [own, List.mem_filterMap, Option.map_eq_some_iff, Prod.mk.injEq, Prod.exists]
  constructor
  · rintro ⟨r, j, hmem, b, hb, rfl, rfl⟩
    exact ⟨r, hmem, hb⟩
  · rintro ⟨r, hmem, ha⟩
    exact ⟨r, i, hmem, a, ha, rfl, rfl⟩

theorem stands_of_mem_own (he : e ∈ own placed) :
    (e.2.kind = .ingressRoute ∨ e.2.kind = .dnsRecord) ∧ Stands placed e := by
  obtain ⟨r, hmem, ha⟩ := mem_own.1 he
  obtain ⟨hkind, hk, hcount, hids, hendpoint⟩ := ofResource?_eq_some ha
  refine ⟨hk ▸ hkind, ⟨⟨r, [], List.singleton_sublist.2 hmem, hids, ?_⟩, ?_, ?_, fun _ ↦ ?_⟩⟩
  · intro x hx
    rw [List.mem_singleton.1 hx, hk]
  · rw [hk]
    rcases hkind with hkind | hkind <;> rw [hkind] <;> exact nofun
  · rw [hcount, hids]
    rfl
  · exact ⟨r, hmem, hids, hendpoint⟩

theorem own_cons (r : Resource) (i : Nat) (placed : List (Resource × Nat)) :
    own ((r, i) :: placed) = ((ofResource? r).map fun a ↦ (i, a)).toList ++ own placed := by
  cases ha : ofResource? r <;> simp [own, ha]

theorem pairwise_own (h : placed.Pairwise fun x y ↦ x.2 ≠ y.2) :
    (own placed).Pairwise fun e f ↦ e.1 ≠ f.1 := by
  rw [own, List.pairwise_filterMap]
  refine h.imp fun {x y} hne e he f hf ↦ ?_
  obtain ⟨a, -, rfl⟩ := Option.map_eq_some_iff.1 he
  obtain ⟨b, -, rfl⟩ := Option.map_eq_some_iff.1 hf
  exact hne

theorem flatMap_own (placed : List (Resource × Nat)) :
    (own placed).flatMap (fun e ↦ e.2.resources) =
      (placed.filter fun x ↦ x.1.kind == .ingressRoute || x.1.kind == .dnsRecord).map
        fun x ↦ x.1.id := by
  induction placed with
  | nil => rfl
  | cons x placed ih =>
    obtain ⟨r, i⟩ := x
    rw [own_cons, List.flatMap_append, ih, List.filter_cons, ← isSome_ofResource? r]
    cases ha : ofResource? r with
    | none => rfl
    | some a =>
      obtain ⟨-, -, -, hids, -⟩ := ofResource?_eq_some ha
      simp [hids]

end Assertion

namespace ResourceGraph

open Assertion (Stands counted own)

variable {g : ResourceGraph} {e f : Nat × Assertion}

def assertions (g : ResourceGraph) : List (Nat × Assertion) :=
  counted g.resources.zipIdx .computeNode .runningCount "running" ++
    counted g.resources.zipIdx .volume .attachedCount "attached" ++ own g.resources.zipIdx

theorem verificationPlan_eq (g : ResourceGraph) :
    g.verificationPlan = (g.assertions.mergeSort fun a b ↦ a.1 ≤ b.1).map Prod.snd := rfl

theorem stands_of_mem_assertions (he : e ∈ g.assertions) : Stands g.resources.zipIdx e := by
  rw [assertions, List.mem_append, List.mem_append] at he
  rcases he with (he | he) | he
  · exact (Assertion.stands_of_mem_counted (.inl rfl) he).2
  · exact (Assertion.stands_of_mem_counted (.inr rfl) he).2
  · exact (Assertion.stands_of_mem_own he).2

theorem pairwise_assertions (g : ResourceGraph) : g.assertions.Pairwise fun e f ↦ e.1 ≠ f.1 := by
  have hzip {r : Resource} {i : Nat} (h : (r, i) ∈ g.resources.zipIdx) : g.resources[i]? = some r :=
    List.mem_zipIdx_iff_getElem?.1 h
  have hplace {e : Nat × Assertion} (he : e ∈ g.assertions) :
      ∃ r, g.resources[e.1]? = some r ∧ r.kind = e.2.kind := by
    obtain ⟨⟨r, rest, hsub, -, hkind⟩, -⟩ := stands_of_mem_assertions he
    exact ⟨r, hzip (hsub.subset (.head _)), hkind _ (.head _)⟩
  have hne {e f : Nat × Assertion} (he : e ∈ g.assertions) (hf : f ∈ g.assertions)
      (hkind : e.2.kind ≠ f.2.kind) : e.1 ≠ f.1 := by
    intro heq
    obtain ⟨r, hr, hek⟩ := hplace he
    obtain ⟨r', hr', hfk⟩ := hplace hf
    rw [heq, hr'] at hr
    obtain rfl := Option.some.inj hr
    exact hkind (hek.symm.trans hfk)
  have hcounted (k : Kind) (check : Check) (state : String) :
      (counted g.resources.zipIdx k check state).Pairwise fun e f ↦ e.1 ≠ f.1 := by
    have hle := Assertion.length_counted_le g.resources.zipIdx k check state
    match counted g.resources.zipIdx k check state, hle with
    | [], _ => exact .nil
    | [e], _ => exact List.pairwise_singleton _ _
  have hown : (own g.resources.zipIdx).Pairwise fun e f ↦ e.1 ≠ f.1 := by
    refine Assertion.pairwise_own ?_
    rw [← List.pairwise_map (f := Prod.snd) (R := (· ≠ ·)), List.zipIdx_map_snd]
    exact List.nodup_range'
  rw [assertions] at hne ⊢
  refine List.pairwise_append.2 ⟨List.pairwise_append.2 ⟨hcounted _ _ _, hcounted _ _ _, ?_⟩,
    hown, ?_⟩
  · intro e he f hf
    have hek := (Assertion.stands_of_mem_counted (.inl rfl) he).1
    have hfk := (Assertion.stands_of_mem_counted (.inr rfl) hf).1
    refine hne (by simp [he]) (by simp [hf]) ?_
    rw [hek, hfk]
    decide
  · intro e he f hf
    have hfk := (Assertion.stands_of_mem_own hf).1
    refine hne (List.mem_append_left _ he) (List.mem_append_right _ hf) ?_
    rcases List.mem_append.1 he with he | he
    · rw [(Assertion.stands_of_mem_counted (.inl rfl) he).1]
      rcases hfk with hfk | hfk <;> rw [hfk] <;> decide
    · rw [(Assertion.stands_of_mem_counted (.inr rfl) he).1]
      rcases hfk with hfk | hfk <;> rw [hfk] <;> decide

theorem countP_assertions_le (g : ResourceGraph) {k : Kind} (hk : k = .computeNode ∨ k = .volume) :
    g.assertions.countP (fun e ↦ e.2.kind == k) ≤ 1 := by
  have hnone {l : List (Nat × Assertion)} (h : ∀ e ∈ l, e.2.kind ≠ k) :
      l.countP (fun e ↦ e.2.kind == k) = 0 :=
    List.countP_eq_zero.2 fun e he ↦ by simpa using h e he
  have hle (k' : Kind) (check : Check) (state : String) :
      (counted g.resources.zipIdx k' check state).countP (fun e ↦ e.2.kind == k) ≤ 1 :=
    List.countP_le_length.trans (Assertion.length_counted_le _ _ _ _)
  have hown : (own g.resources.zipIdx).countP (fun e ↦ e.2.kind == k) = 0 := by
    refine hnone fun e he ↦ ?_
    rcases hk with rfl | rfl <;> rcases (Assertion.stands_of_mem_own he).1 with h | h <;> simp [h]
  rw [assertions, List.countP_append, List.countP_append, hown, Nat.add_zero]
  rcases hk with rfl | rfl
  · rw [hnone (l := counted _ .volume _ _) fun e he ↦ ?_]
    · exact hle _ _ _
    · rw [(Assertion.stands_of_mem_counted (.inr rfl) he).1]
      decide
  · rw [hnone (l := counted _ .computeNode _ _) fun e he ↦ ?_, Nat.zero_add]
    · exact hle _ _ _
    · rw [(Assertion.stands_of_mem_counted (.inl rfl) he).1]
      decide

theorem exists_sorted_assertions (g : ResourceGraph) : ∃ placed : List (Nat × Assertion),
    placed.Perm g.assertions ∧ placed.map Prod.snd = g.verificationPlan ∧
      placed.Pairwise fun e f ↦ e.1 < f.1 := by
  have hperm := List.mergeSort_perm g.assertions fun a b ↦ a.1 ≤ b.1
  have hsorted : (g.assertions.mergeSort fun a b ↦ a.1 ≤ b.1).Pairwise fun e f ↦
      decide (e.1 ≤ f.1) = true := by
    refine List.pairwise_mergeSort (fun e f h ↦ ?_) (fun e f ↦ ?_) _
    · simp only [decide_eq_true_eq]
      exact Nat.le_trans
    · simp only [Bool.or_eq_true, decide_eq_true_eq]
      exact Nat.le_total e.1 f.1
  have hne := hperm.symm.pairwise (pairwise_assertions g) fun h ↦ h.symm
  refine ⟨_, hperm, g.verificationPlan_eq.symm, (hsorted.and hne).imp fun ⟨hle, hne⟩ ↦ ?_⟩
  exact Nat.lt_of_le_of_ne (of_decide_eq_true hle) hne

theorem perm_filter_kinds (rs : List Resource) :
    (rs.filter (fun r ↦ r.kind == .computeNode) ++ rs.filter (fun r ↦ r.kind == .volume) ++
      rs.filter fun r ↦ r.kind == .ingressRoute || r.kind == .dnsRecord).Perm
        (rs.filter fun r ↦ r.kind != .networkLink) := by
  induction rs with
  | nil => exact .nil
  | cons r rs ih =>
    cases hk : r.kind with
    | computeNode => simpa [hk] using ih
    | networkLink => simpa [hk] using ih
    | volume =>
      rw [List.append_assoc] at ih
      simpa [hk] using List.perm_middle.trans (ih.cons r)
    | ingressRoute => simpa [hk] using List.perm_middle.trans (ih.cons r)
    | dnsRecord => simpa [hk] using List.perm_middle.trans (ih.cons r)

theorem perm_flatMap_verificationPlan (g : ResourceGraph) :
    (g.verificationPlan.flatMap Assertion.resources).Perm
      ((g.resources.filter fun r ↦ r.kind != .networkLink).map Resource.id) := by
  obtain ⟨placed, hperm, hplan, -⟩ := exists_sorted_assertions g
  rw [← hplan, List.flatMap_map]
  refine (hperm.flatMap_right _).trans ?_
  have hfilter (p : Kind → Bool) : (g.resources.zipIdx.filter fun x ↦ p x.1.kind).map
      (fun x ↦ x.1.id) = (g.resources.filter fun r ↦ p r.kind).map Resource.id := by
    have hmap : g.resources = g.resources.zipIdx.map Prod.fst := (List.zipIdx_map_fst 0 _).symm
    conv_rhs => rw [hmap, List.filter_map, List.map_map]
    rfl
  have hmachines := hfilter (· == .computeNode)
  have hvolumes := hfilter (· == .volume)
  have hown := hfilter fun k ↦ k == .ingressRoute || k == .dnsRecord
  simp only [assertions, List.flatMap_append, Assertion.flatMap_counted, Assertion.flatMap_own,
    hmachines, hvolumes, hown, ← List.map_append]
  exact (perm_filter_kinds g.resources).map _

theorem position?_of_getElem? (hids : g.ids.Nodup) {r : Resource} {i : Nat}
    (h : g.resources[i]? = some r) : g.position? r.id = some i := by
  obtain ⟨hi, rfl⟩ := List.getElem?_eq_some_iff.1 h
  rw [ids, List.Nodup, List.pairwise_map, List.pairwise_iff_getElem] at hids
  rw [position?, List.findIdx?_eq_some_iff_getElem]
  refine ⟨hi, beq_self_eq_true _, fun j hj heq ↦ ?_⟩
  exact hids j i (Nat.lt_trans hj hi) hi hj (beq_iff_eq.1 heq)

/-- The place of the first resource that an assertion is about. -/
def firstPlace? (g : ResourceGraph) (a : Assertion) : Option Nat :=
  a.resources.head?.bind g.position?

/-- An assertion on resources of one kind, in the order of the graph, and how many they are. A route
or a record has one to itself, with its domain. -/
structure Asserts (g : ResourceGraph) (a : Assertion) : Prop where
  observable : a.kind ≠ .networkLink
  members : ∃ rs : List Resource, rs.Sublist g.resources ∧ a.resources = rs.map Resource.id ∧
    ∀ r ∈ rs, r.kind = a.kind
  expectedCount : a.expectedCount = a.resources.length
  expectedCount_pos : 1 ≤ a.expectedCount
  alone : a.kind = .ingressRoute ∨ a.kind = .dnsRecord →
    ∃ r ∈ g.resources, a.resources = [r.id] ∧
      a.endpoint = r.properties["domain"]?.bind Property.text?

theorem asserts_of_stands (h : Stands g.resources.zipIdx e) : g.Asserts e.2 := by
  obtain ⟨⟨r, rest, hsub, hids, hkind⟩, hobservable, hcount, halone⟩ := h
  refine ⟨hobservable, ⟨((r, e.1) :: rest).map Prod.fst, ?_, ?_, ?_⟩, hcount, ?_, fun hk ↦ ?_⟩
  · have hfst := hsub.map Prod.fst
    rwa [List.zipIdx_map_fst] at hfst
  · rw [hids, List.map_map]
    rfl
  · intro s hs
    obtain ⟨x, hx, rfl⟩ := List.mem_map.1 hs
    exact hkind x hx
  · rw [hcount, hids]
    simp
  · obtain ⟨s, hs, hresources, hendpoint⟩ := halone hk
    have hs := List.mem_zipIdx_iff_getElem?.1 hs
    exact ⟨s, List.mem_of_getElem? hs, hresources, hendpoint⟩

theorem firstPlace?_of_stands (hids : g.ids.Nodup) (h : Stands g.resources.zipIdx e) :
    g.firstPlace? e.2 = some e.1 := by
  obtain ⟨⟨r, rest, hsub, hresources, -⟩, -⟩ := h
  have hr : (r, e.1) ∈ g.resources.zipIdx := hsub.subset (.head _)
  rw [firstPlace?, hresources]
  exact position?_of_getElem? hids (List.mem_zipIdx_iff_getElem?.1 hr)

/-- The plan is about every resource but the links, each in one assertion and once there. An
assertion is about resources of its kind, in the order of the graph, and tells how many they are.
Machines are together in one assertion, and volumes are; each route and each record has one of its
own, with its domain. The assertions come in the order of their first resources. -/
theorem verificationPlan_covers (hg : g.Accepted) :
    (∀ r ∈ g.resources, r.kind ≠ .networkLink → ∃ early a late,
      g.verificationPlan = early ++ a :: late ∧ a.resources.count r.id = 1 ∧
        ∀ b ∈ early ++ late, r.id ∉ b.resources) ∧
    (∀ r ∈ g.resources, r.kind = .networkLink → ∀ a ∈ g.verificationPlan, r.id ∉ a.resources) ∧
    (∀ a ∈ g.verificationPlan, g.Asserts a) ∧
    g.verificationPlan.countP (·.kind == .computeNode) ≤ 1 ∧
    g.verificationPlan.countP (·.kind == .volume) ≤ 1 ∧
    ∃ places : List Nat, g.verificationPlan.map g.firstPlace? = places.map some ∧
      places.Pairwise (· < ·) := by
  have hids := hg.nodup_ids
  obtain ⟨placed, hperm, hplan, hsorted⟩ := exists_sorted_assertions g
  have hstands : ∀ e ∈ placed, Stands g.resources.zipIdx e := fun e he ↦
    stands_of_mem_assertions (hperm.subset he)
  have hflat := perm_flatMap_verificationPlan g
  have hnodup : (g.verificationPlan.flatMap Assertion.resources).Nodup :=
    hflat.nodup_iff.2 (hids.sublist (List.filter_sublist.map _))
  have hcount (k : Kind) : g.verificationPlan.countP (·.kind == k) =
      g.assertions.countP fun e ↦ e.2.kind == k := by
    rw [← hplan, List.countP_map, ← hperm.countP_eq]
    rfl
  refine ⟨?_, ?_, ?_, ?_, ?_, ?_⟩
  · intro r hr hk
    have hmem : r.id ∈ g.verificationPlan.flatMap Assertion.resources := by
      refine hflat.mem_iff.2 (List.mem_map_of_mem (List.mem_filter.2 ⟨hr, ?_⟩))
      simpa using hk
    exact exists_split_of_nodup_flatMap hnodup hmem
  · intro r hr hk a ha hra
    have hmem := hflat.mem_iff.1 (List.mem_flatMap.2 ⟨a, ha, hra⟩)
    obtain ⟨s, hs, hid⟩ := List.mem_map.1 hmem
    obtain ⟨hs, hkind⟩ := List.mem_filter.1 hs
    obtain rfl := List.inj_on_of_nodup_map hids hs hr hid
    simp [hk] at hkind
  · intro a ha
    rw [← hplan] at ha
    obtain ⟨e, he, rfl⟩ := List.mem_map.1 ha
    exact asserts_of_stands (hstands e he)
  · rw [hcount]
    exact countP_assertions_le g (.inl rfl)
  · rw [hcount]
    exact countP_assertions_le g (.inr rfl)
  · refine ⟨placed.map Prod.fst, ?_, List.pairwise_map.2 hsorted⟩
    rw [← hplan, List.map_map, List.map_map]
    exact List.map_congr_left fun e he ↦ firstPlace?_of_stands hids (hstands e he)

def scattered : ResourceGraph where
  workload := "default/w"
  resources := [⟨"a", .dnsRecord, .of [("domain", .text "a.io")], ∅⟩, ⟨"b", .computeNode, ∅, ∅⟩,
    ⟨"c", .volume, ∅, .of ["b"]⟩, ⟨"d", .computeNode, ∅, ∅⟩,
    ⟨"e", .networkLink, ∅, .of ["b", "d"]⟩, ⟨"f", .ingressRoute, .of [("domain", .int 3)], ∅⟩]

theorem verificationPlan_covers_scattered : scattered.Accepted ∧
    scattered.verificationPlan.map (fun a ↦ (a.resources, a.endpoint)) =
      [(["a"], some "a.io"), (["b", "d"], none), (["c"], none), (["f"], none)] ∧
    (∀ a ∈ scattered.verificationPlan, scattered.Asserts a) ∧
    ∃ places : List Nat, scattered.verificationPlan.map scattered.firstPlace? = places.map some ∧
      places.Pairwise (· < ·) := by
  have hg : scattered.Accepted := by
    refine ⟨"default/w", scattered.resources, ?_⟩
    simp only [ofResources, ResourceMap.sweep_eq_runByList]
    decide +kernel
  obtain ⟨-, -, hasserts, -, -, hplaces⟩ := verificationPlan_covers hg
  exact ⟨hg, by cbv, hasserts, hplaces⟩

end ResourceGraph

end Multicloud
