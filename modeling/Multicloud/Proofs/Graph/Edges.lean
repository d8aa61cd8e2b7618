import Mathlib.Data.List.Nodup
import Mathlib.Tactic.Ring
import Multicloud.Graph.Build

namespace Multicloud.Topology

variable {t : Topology} {low high nodes a b i j : UInt64} {edges : List (UInt64 × UInt64)}

theorem mem_upTo : i ∈ upTo low high ↔ low ≤ i ∧ i < high := by
  have hlow := low.toNat_lt
  have hhigh := high.toNat_lt
  simp only [upTo, List.mem_map, List.mem_range'_1, UInt64.le_iff_toNat_le,
    UInt64.lt_iff_toNat_lt]
  constructor
  · rintro ⟨n, hn, rfl⟩
    rw [UInt64.toNat_ofNat_of_lt' (by rw [UInt64.size]; omega)]
    omega
  · intro h
    exact ⟨i.toNat, by omega, UInt64.ofNat_toNat⟩

theorem length_upTo (low high : UInt64) : (upTo low high).length = high.toNat - low.toNat := by
  rw [upTo, List.length_map, List.length_range']

theorem nodup_upTo (low high : UInt64) : (upTo low high).Nodup := by
  have hhigh := high.toNat_lt
  have hrange : (List.range' low.toNat (high.toNat - low.toNat)).Nodup := List.nodup_range'
  refine hrange.map_on fun m hm n hn he ↦ ?_
  rw [List.mem_range'_1] at hm hn
  have he := congrArg UInt64.toNat he
  rwa [UInt64.toNat_ofNat_of_lt' (by rw [UInt64.size]; omega),
    UInt64.toNat_ofNat_of_lt' (by rw [UInt64.size]; omega)] at he

/-- Whether two nodes are linked: all of them, all with the first, or each with its neighbours on a
circle. The smaller number comes first. -/
def Links (t : Topology) (nodes a b : UInt64) : Prop :=
  a < b ∧ b < nodes ∧
    match t with
    | mesh => True
    | star => a = 0
    | ring => b.toNat = a.toNat + 1 ∨ (a = 0 ∧ b.toNat + 1 = nodes.toNat)

def linkCount (t : Topology) (nodes : Nat) : Nat :=
  match t with
  | mesh => nodes * (nodes - 1) / 2
  | star => nodes - 1
  | ring => nodes

theorem toNat_succ (h : a < nodes) : (a + 1).toNat = a.toNat + 1 := by
  have hnodes := nodes.toNat_lt
  rw [UInt64.lt_iff_toNat_lt] at h
  rw [UInt64.toNat_add, UInt64.toNat_one]
  exact Nat.mod_eq_of_lt (by omega)

section Mesh

def meshEdges (nodes : UInt64) : List (UInt64 × UInt64) :=
  (upTo 0 nodes).flatMap fun a ↦ (upTo (a + 1) nodes).map fun b ↦ (a, b)

theorem mem_meshEdges : (a, b) ∈ meshEdges nodes ↔ a < b ∧ b < nodes := by
  simp only [meshEdges, List.mem_flatMap, List.mem_map, mem_upTo, Prod.mk.injEq]
  constructor
  · rintro ⟨a, ⟨-, ha⟩, b, ⟨hab, hb⟩, rfl, rfl⟩
    rw [UInt64.le_iff_toNat_le, toNat_succ ha] at hab
    exact ⟨UInt64.lt_iff_toNat_lt.2 (by omega), hb⟩
  · rintro ⟨hab, hb⟩
    have ha : a < nodes := UInt64.lt_trans hab hb
    refine ⟨a, ⟨UInt64.zero_le, ha⟩, b, ⟨?_, hb⟩, rfl, rfl⟩
    rw [UInt64.le_iff_toNat_le, toNat_succ ha]
    exact UInt64.lt_iff_toNat_lt.1 hab

theorem nodup_meshEdges (nodes : UInt64) : (meshEdges nodes).Nodup := by
  refine List.nodup_flatMap.2 ⟨fun a _ ↦ ?_, ?_⟩
  · exact (nodup_upTo _ _).map fun b b' h ↦ (Prod.mk.inj h).2
  · refine (nodup_upTo 0 nodes).imp fun hne e he he' ↦ ?_
    obtain ⟨b, -, rfl⟩ := List.mem_map.1 he
    obtain ⟨b', -, h⟩ := List.mem_map.1 he'
    exact hne (Prod.mk.inj h).1.symm

theorem sum_range_below (n : Nat) :
    2 * ((List.range n).map fun a ↦ n - (a + 1)).sum = n * (n - 1) := by
  induction n with
  | zero => rfl
  | succ n ih =>
    have hshift : ((List.range n).map Nat.succ).map (fun a ↦ n + 1 - (a + 1)) =
        (List.range n).map fun a ↦ n - (a + 1) := by
      rw [List.map_map]
      refine List.map_congr_left fun a _ ↦ ?_
      simp only [Function.comp_apply]
      omega
    rw [List.range_succ_eq_map, List.map_cons, hshift, List.sum_cons, Nat.mul_add, ih]
    cases n with
    | zero => rfl
    | succ n =>
      simp only [Nat.add_sub_cancel]
      ring

theorem length_meshEdges (nodes : UInt64) :
    (meshEdges nodes).length = linkCount mesh nodes.toNat := by
  have hnodes := nodes.toNat_lt
  have hsum := sum_range_below nodes.toNat
  have hlength : (meshEdges nodes).length =
      ((List.range nodes.toNat).map fun a ↦ nodes.toNat - (a + 1)).sum := by
    rw [meshEdges, List.length_flatMap, upTo, List.map_map, List.range_eq_range']
    refine congrArg List.sum (List.map_congr_left fun a ha ↦ ?_)
    have ha : a < nodes.toNat := by simpa using (List.mem_range'_1.1 ha).2
    have hto : (UInt64.ofNat a).toNat = a :=
      UInt64.toNat_ofNat_of_lt' (by rw [UInt64.size]; omega)
    have hlt : UInt64.ofNat a < nodes := UInt64.lt_iff_toNat_lt.2 (by omega)
    rw [Function.comp_apply, List.length_map, length_upTo, toNat_succ hlt, hto]
  rw [hlength, linkCount]
  omega

end Mesh

section Ring

theorem ringEdge_of_lt (h : i.toNat + 1 < nodes.toNat) : ringEdge nodes i = (i, i + 1) := by
  have hi : i < nodes := UInt64.lt_iff_toNat_lt.2 (by omega)
  have hj : (i + 1) % nodes = i + 1 := by
    rw [← UInt64.toNat_inj, UInt64.toNat_mod, toNat_succ hi]
    exact Nat.mod_eq_of_lt h
  have hle : i ≤ i + 1 := by
    rw [UInt64.le_iff_toNat_le, toNat_succ hi]
    omega
  rw [ringEdge, hj, UInt64.min_def, if_pos hle, UInt64.max_def, if_pos hle]

theorem ringEdge_of_eq (h : i.toNat + 1 = nodes.toNat) : ringEdge nodes i = (0, i) := by
  have hi : i < nodes := UInt64.lt_iff_toNat_lt.2 (by omega)
  have hj : (i + 1) % nodes = 0 := by
    rw [← UInt64.toNat_inj, UInt64.toNat_mod, toNat_succ hi, h, Nat.mod_self, UInt64.toNat_zero]
  have hmin : min i 0 = 0 := by
    rw [← UInt64.toNat_inj, UInt64.toNat_min, UInt64.toNat_zero, Nat.min_zero]
  have hmax : max i 0 = i := by
    rw [← UInt64.toNat_inj, UInt64.toNat_max, UInt64.toNat_zero, Nat.max_zero]
  rw [ringEdge, hj, hmin, hmax]

theorem ringEdge_inj (hn : 3 ≤ nodes.toNat) (hi : i < nodes) (hj : j < nodes)
    (h : ringEdge nodes i = ringEdge nodes j) : i = j := by
  rw [UInt64.lt_iff_toNat_lt] at hi hj
  -- The closing link is none of the others: they join neighbours.
  have hne {i j : UInt64} (hi : i.toNat + 1 < nodes.toNat) (hj : j.toNat + 1 = nodes.toNat) :
      ringEdge nodes i ≠ ringEdge nodes j := by
    rw [ringEdge_of_lt hi, ringEdge_of_eq hj]
    intro h
    obtain ⟨hi, hj⟩ := Prod.mk.inj h
    have hj := congrArg UInt64.toNat hj
    rw [hi] at hj
    simp at hj
    omega
  rcases Nat.lt_or_ge (i.toNat + 1) nodes.toNat with hi' | hi' <;>
    rcases Nat.lt_or_ge (j.toNat + 1) nodes.toNat with hj' | hj'
  · rw [ringEdge_of_lt hi', ringEdge_of_lt hj'] at h
    exact (Prod.mk.inj h).1
  · exact absurd h (hne hi' (by omega))
  · exact absurd h.symm (hne hj' (by omega))
  · exact UInt64.toNat_inj.1 (by omega)

theorem mem_map_ringEdge (hn : 3 ≤ nodes.toNat) :
    (a, b) ∈ (upTo 0 nodes).map (ringEdge nodes) ↔ Links ring nodes a b := by
  simp only [List.mem_map, mem_upTo, Links, UInt64.lt_iff_toNat_lt]
  constructor
  · rintro ⟨i, ⟨-, hi⟩, h⟩
    rcases Nat.lt_or_ge (i.toNat + 1) nodes.toNat with hi' | hi'
    · rw [ringEdge_of_lt hi'] at h
      obtain ⟨rfl, rfl⟩ := Prod.mk.inj h
      have hsucc := toNat_succ (UInt64.lt_iff_toNat_lt.2 hi)
      exact ⟨by omega, by omega, .inl hsucc⟩
    · rw [ringEdge_of_eq (by omega)] at h
      obtain ⟨rfl, rfl⟩ := Prod.mk.inj h
      refine ⟨?_, hi, .inr ⟨rfl, by omega⟩⟩
      rw [UInt64.toNat_zero]
      omega
  · rintro ⟨hab, hb, hsucc | ⟨rfl, hlast⟩⟩
    · refine ⟨a, ⟨UInt64.zero_le, by omega⟩, ?_⟩
      have ha := toNat_succ (UInt64.lt_iff_toNat_lt.2 hab)
      rw [ringEdge_of_lt (by omega), UInt64.toNat_inj.1 (ha.trans hsucc.symm)]
    · exact ⟨b, ⟨UInt64.zero_le, hb⟩, ringEdge_of_eq hlast⟩

theorem nodup_map_ringEdge (hn : 3 ≤ nodes.toNat) :
    ((upTo 0 nodes).map (ringEdge nodes)).Nodup := by
  refine (nodup_upTo 0 nodes).map_on fun i hi j hj h ↦ ?_
  exact ringEdge_inj hn (mem_upTo.1 hi).2 (mem_upTo.1 hj).2 h

end Ring

theorem edges_eq_error_iff {e : GraphError} : t.edges nodes = .error e ↔
    t = ring ∧ nodes < 3 ∧
      e = .unsupportedTopology ring.name nodes "a ring needs at least 3 compute nodes" := by
  cases t with
  | mesh => simp [edges]
  | star => simp [edges]
  | ring =>
    simp only [edges]
    split
    · next h => simp [h, eq_comm]
    · next h => simp [h]

theorem edges_eq_ok (h : t.edges nodes = .ok edges) :
    edges.Nodup ∧ edges.length = t.linkCount nodes.toNat ∧
      ∀ a b, (a, b) ∈ edges ↔ t.Links nodes a b := by
  cases t with
  | mesh =>
    obtain rfl : meshEdges nodes = edges := Except.ok.inj h
    refine ⟨nodup_meshEdges nodes, length_meshEdges nodes, fun a b ↦ ?_⟩
    simp only [mem_meshEdges, Links, and_true]
  | star =>
    obtain rfl : ((upTo 1 nodes).map fun b ↦ ((0 : UInt64), b)) = edges := Except.ok.inj h
    refine ⟨(nodup_upTo 1 nodes).map fun b b' h ↦ (Prod.mk.inj h).2, ?_, fun a b ↦ ?_⟩
    · rw [List.length_map, length_upTo, linkCount, UInt64.toNat_one]
    · simp only [List.mem_map, mem_upTo, Prod.mk.injEq, Links]
      constructor
      · rintro ⟨b, ⟨hone, hb⟩, rfl, rfl⟩
        refine ⟨UInt64.lt_iff_toNat_lt.2 ?_, hb, rfl⟩
        exact UInt64.le_iff_toNat_le.1 hone
      · rintro ⟨hb, hnodes, rfl⟩
        refine ⟨b, ⟨UInt64.le_iff_toNat_le.2 ?_, hnodes⟩, rfl, rfl⟩
        exact UInt64.lt_iff_toNat_lt.1 hb
  | ring =>
    simp only [Topology.edges] at h
    split at h
    · cases h
    · next hn =>
      have hn : 3 ≤ nodes.toNat := by
        rw [UInt64.lt_iff_toNat_lt] at hn
        simpa using hn
      have hperm := List.mergeSort_perm ((upTo 0 nodes).map (ringEdge nodes))
        fun e f ↦ e.1 < f.1 || (e.1 == f.1 && e.2 ≤ f.2)
      rw [Except.ok.injEq] at h
      rw [h] at hperm
      refine ⟨hperm.nodup_iff.2 (nodup_map_ringEdge hn), ?_, fun a b ↦ ?_⟩
      · rw [hperm.length_eq, List.length_map, length_upTo]
        rfl
      · rw [hperm.mem_iff, mem_map_ringEdge hn]

end Multicloud.Topology
