import Mathlib.Combinatorics.SimpleGraph.CycleGraph
import Mathlib.Combinatorics.SimpleGraph.Star
import Multicloud.Proofs.Fallible
import Multicloud.Proofs.Graph.Edges

namespace Multicloud.Topology

variable {t : Topology} {low high nodes a b i : UInt64} {edges : List (UInt64 × UInt64)}

section Order

/-- Lexicographic order: the smaller ends decide first. -/
def Precedes (e f : UInt64 × UInt64) : Prop := e.1 < f.1 ∨ e.1 = f.1 ∧ e.2 < f.2

def leEdge (e f : UInt64 × UInt64) : Bool := e.1 < f.1 || (e.1 == f.1 && e.2 ≤ f.2)

theorem leEdge_iff {e f : UInt64 × UInt64} : leEdge e f = true ↔ Precedes e f ∨ e = f := by
  obtain ⟨a, b⟩ := e
  obtain ⟨a', b'⟩ := f
  simp only [leEdge, Precedes, Bool.or_eq_true, Bool.and_eq_true, decide_eq_true_eq, beq_iff_eq,
    Prod.mk.injEq, UInt64.le_iff_lt_or_eq, and_or_left, or_assoc]

theorem leEdge_trans (e f g : UInt64 × UInt64) (h : leEdge e f = true)
    (h' : leEdge f g = true) : leEdge e g = true := by
  simp only [leEdge, Bool.or_eq_true, Bool.and_eq_true, decide_eq_true_eq, beq_iff_eq,
    ← UInt64.toNat_inj, UInt64.lt_iff_toNat_lt, UInt64.le_iff_toNat_le] at h h' ⊢
  omega

theorem leEdge_total (e f : UInt64 × UInt64) : (leEdge e f || leEdge f e) = true := by
  simp only [leEdge, Bool.or_eq_true, Bool.and_eq_true, decide_eq_true_eq, beq_iff_eq,
    ← UInt64.toNat_inj, UInt64.lt_iff_toNat_lt, UInt64.le_iff_toNat_le]
  omega

theorem pairwise_upTo (low high : UInt64) : (upTo low high).Pairwise (· < ·) := by
  have hhigh := high.toNat_lt
  have hrange : (List.range' low.toNat (high.toNat - low.toNat)).Pairwise (· < ·) :=
    List.pairwise_lt_range'
  rw [upTo, List.pairwise_map]
  refine hrange.imp_of_mem fun {m n} hm hn hlt ↦ ?_
  rw [List.mem_range'_1] at hm hn
  rw [UInt64.lt_iff_toNat_lt, UInt64.toNat_ofNat_of_lt' (by rw [UInt64.size]; omega),
    UInt64.toNat_ofNat_of_lt' (by rw [UInt64.size]; omega)]
  exact hlt

theorem pairwise_meshEdges (nodes : UInt64) : (meshEdges nodes).Pairwise Precedes := by
  rw [meshEdges, List.pairwise_flatMap]
  constructor
  · intro a _
    rw [List.pairwise_map]
    exact (pairwise_upTo _ _).imp fun hlt ↦ .inr ⟨rfl, hlt⟩
  · refine (pairwise_upTo 0 nodes).imp fun hlt e he f hf ↦ ?_
    obtain ⟨b, -, rfl⟩ := List.mem_map.1 he
    obtain ⟨b', -, rfl⟩ := List.mem_map.1 hf
    exact .inl hlt

theorem pairwise_edges (h : t.edges nodes = .ok edges) : edges.Pairwise Precedes := by
  cases t with
  | mesh =>
    obtain rfl : meshEdges nodes = edges := Except.ok.inj h
    exact pairwise_meshEdges nodes
  | star =>
    obtain rfl : ((upTo 1 nodes).map fun b ↦ ((0 : UInt64), b)) = edges := Except.ok.inj h
    rw [List.pairwise_map]
    exact (pairwise_upTo _ _).imp fun hlt ↦ .inr ⟨rfl, hlt⟩
  | ring =>
    -- sorted, and none is there twice
    have hnodup := (edges_eq_ok h).1
    simp only [Topology.edges] at h
    split at h
    · cases h
    · obtain rfl : ((upTo 0 nodes).map (ringEdge nodes)).mergeSort leEdge = edges :=
        Except.ok.inj h
      have hsorted : (((upTo 0 nodes).map (ringEdge nodes)).mergeSort leEdge).Pairwise
          fun e f ↦ leEdge e f = true :=
        List.pairwise_mergeSort leEdge_trans leEdge_total _
      refine (hsorted.and hnodup).imp fun h ↦ ?_
      exact (leEdge_iff.1 h.1).resolve_right h.2

end Order

section Network

/-- The nodes below a number, and the links among them without their direction. -/
def network (nodes : UInt64) (edges : List (UInt64 × UInt64)) : SimpleGraph (Fin nodes.toNat) :=
  SimpleGraph.fromRel fun i j ↦ (UInt64.ofNat i, UInt64.ofNat j) ∈ edges

instance : DecidableRel (network nodes edges).Adj := fun i j ↦
  decidable_of_iff _ (SimpleGraph.fromRel_adj _ i j).symm

def degree (t : Topology) (nodes i : Nat) : Nat :=
  match t with
  | mesh => nodes - 1
  | star => if i = 0 then nodes - 1 else 1
  | ring => 2

theorem toNat_ofNat_fin (i : Fin nodes.toNat) : (UInt64.ofNat i).toNat = i := by
  have hnodes := nodes.toNat_lt
  exact UInt64.toNat_ofNat_of_lt' (by rw [UInt64.size]; omega)

theorem network_adj (h : t.edges nodes = .ok edges) {i j : Fin nodes.toNat} :
    (network nodes edges).Adj i j ↔
      t.Links nodes (UInt64.ofNat i) (UInt64.ofNat j) ∨
        t.Links nodes (UInt64.ofNat j) (UInt64.ofNat i) := by
  have hmem := (edges_eq_ok h).2.2
  rw [network, SimpleGraph.fromRel_adj, hmem, hmem, and_iff_right_iff_imp]
  rintro (hlinks | hlinks) rfl
  · exact UInt64.lt_irrefl _ hlinks.1
  · exact UInt64.lt_irrefl _ hlinks.1

theorem network_mesh (h : mesh.edges nodes = .ok edges) : network nodes edges = ⊤ := by
  ext i j
  simp only [network_adj h, Links, and_true, UInt64.lt_iff_toNat_lt, toNat_ofNat_fin,
    SimpleGraph.top_adj, ne_eq, Fin.ext_iff]
  omega

theorem network_star (hn : 0 < nodes.toNat) (h : star.edges nodes = .ok edges) :
    network nodes edges = SimpleGraph.starGraph ⟨0, hn⟩ := by
  ext i j
  simp only [network_adj h, Links, UInt64.lt_iff_toNat_lt, ← UInt64.toNat_inj, toNat_ofNat_fin,
    UInt64.toNat_zero, SimpleGraph.starGraph_adj, ne_eq, Fin.ext_iff]
  omega

theorem exists_edges_eq_ok_iff :
    (∃ edges, t.edges nodes = .ok edges) ↔ (t = ring → 3 ≤ nodes.toNat) := by
  have hlt : nodes < 3 ↔ nodes.toNat < 3 := UInt64.lt_iff_toNat_lt
  constructor
  · rintro ⟨edges, h⟩ rfl
    by_contra hn
    rw [edges_eq_error_iff.2 ⟨rfl, hlt.2 (Nat.not_le.1 hn), rfl⟩] at h
    cases h
  · intro hn
    cases he : t.edges nodes with
    | ok edges => exact ⟨edges, rfl⟩
    | error e =>
      obtain ⟨hring, hfew, -⟩ := edges_eq_error_iff.1 he
      exact absurd (hn hring) (Nat.not_le.2 (hlt.1 hfew))

theorem network_ring (h : ring.edges nodes = .ok edges) :
    network nodes edges = SimpleGraph.cycleGraph nodes.toNat := by
  have hn : 3 ≤ nodes.toNat := exists_edges_eq_ok_iff.1 ⟨edges, h⟩ rfl
  -- one step on the circle: to the next number, or from the last to the first
  have hstep {i j : Nat} (hi : i < nodes.toNat) (hj : j < nodes.toNat) :
      (nodes.toNat - j + i) % nodes.toNat = 1 ↔
        i = j + 1 ∨ i = 0 ∧ j + 1 = nodes.toNat := by
    rcases Nat.lt_or_ge i j with hlt | hge
    · rw [Nat.mod_eq_of_lt (by omega)]
      omega
    · rw [show nodes.toNat - j + i = i - j + nodes.toNat by omega, Nat.add_mod_right,
        Nat.mod_eq_of_lt (by omega)]
      omega
  ext i j
  rw [network_adj h, SimpleGraph.cycleGraph_adj', Fin.val_sub, Fin.val_sub, hstep i.2 j.2,
    hstep j.2 i.2]
  simp only [Links, UInt64.lt_iff_toNat_lt, ← UInt64.toNat_inj, toNat_ofNat_fin,
    UInt64.toNat_zero]
  omega

theorem degree_congr {n : Nat} {G H : SimpleGraph (Fin n)} [DecidableRel G.Adj]
    [DecidableRel H.Adj] (h : G = H) (i : Fin n) : G.degree i = H.degree i := by
  subst h
  congr!

theorem degree_cycleGraph {n : Nat} (hn : 3 ≤ n) (i : Fin n) :
    (SimpleGraph.cycleGraph n).degree i = 2 := by
  obtain ⟨n, rfl⟩ := Nat.exists_eq_add_of_le' hn
  exact SimpleGraph.cycleGraph_degree_three_le

theorem connected_network (hn : 0 < nodes) (h : t.edges nodes = .ok edges) :
    (network nodes edges).Connected := by
  have hn : 0 < nodes.toNat := UInt64.lt_iff_toNat_lt.1 hn
  cases t with
  | mesh =>
    rw [network_mesh h]
    have : Nonempty (Fin nodes.toNat) := ⟨⟨0, hn⟩⟩
    exact SimpleGraph.connected_top
  | star =>
    rw [network_star hn h]
    exact SimpleGraph.connected_starGraph _
  | ring =>
    rw [network_ring h]
    obtain ⟨n, hn⟩ := Nat.exists_eq_add_one.2 hn
    rw [hn]
    exact SimpleGraph.cycleGraph_connected

theorem degree_network (h : t.edges nodes = .ok edges) (i : Fin nodes.toNat) :
    (network nodes edges).degree i = t.degree nodes.toNat i := by
  have hn : 0 < nodes.toNat := Nat.zero_lt_of_lt i.2
  cases t with
  | mesh =>
    rw [degree_congr (network_mesh h), SimpleGraph.complete_graph_degree, Fintype.card_fin]
    rfl
  | star =>
    rw [degree_congr (network_star hn h), degree]
    split
    · next hzero =>
      obtain rfl : i = ⟨0, hn⟩ := Fin.ext hzero
      rw [SimpleGraph.degree_starGraph_center, Fintype.card_fin]
    · next hne =>
      exact SimpleGraph.degree_starGraph_of_ne_center fun he ↦ hne (congrArg Fin.val he)
  | ring =>
    rw [degree_congr (network_ring h)]
    exact degree_cycleGraph (exists_edges_eq_ok_iff.1 ⟨edges, h⟩ rfl) i

end Network

section Checked

/-- A sum, unless it is too great for a word. -/
def add? (a b : UInt64) : Option UInt64 :=
  if a.toNat + b.toNat < UInt64.size then some (a + b) else none

def mod? (a b : UInt64) : Option UInt64 := if b = 0 then none else some (a % b)

def ringEdge? (nodes i : UInt64) : Option (UInt64 × UInt64) := do
  let next ← add? i 1
  let j ← mod? next nodes
  return (min i j, max i j)

/-- The links of a topology, unless a sum or a remainder on the way has no value. -/
def edges? (t : Topology) (nodes : UInt64) : Option (Except GraphError (List (UInt64 × UInt64))) :=
  match t with
  | mesh => do
    let rows ← (upTo 0 nodes).mapM fun a ↦ do
      let next ← add? a 1
      return (upTo next nodes).map fun b ↦ (a, b)
    return .ok rows.flatten
  | star => some (star.edges nodes)
  | ring =>
    if nodes < 3 then some (ring.edges nodes)
    else do
      let links ← (upTo 0 nodes).mapM (ringEdge? nodes)
      return .ok (links.mergeSort leEdge)

theorem add?_one (h : i < nodes) : add? i 1 = some (i + 1) := by
  have hnodes := nodes.toNat_lt
  rw [UInt64.lt_iff_toNat_lt] at h
  exact if_pos (by rw [UInt64.toNat_one, UInt64.size]; omega)

theorem ringEdge?_eq (h : i < nodes) : ringEdge? nodes i = some (ringEdge nodes i) := by
  have hne : nodes ≠ 0 := by
    rintro rfl
    exact absurd (UInt64.lt_iff_toNat_lt.1 h) (Nat.not_lt_zero _)
  rw [ringEdge?, add?_one h]
  simp only [mod?, hne, if_false, Option.bind_eq_bind, Option.bind_some, ringEdge]
  rfl

/-- No sum is too great and no divisor is zero, for any number of nodes. -/
theorem edges?_eq (t : Topology) (nodes : UInt64) : t.edges? nodes = some (t.edges nodes) := by
  cases t with
  | mesh =>
    have hrows : ∀ a ∈ upTo 0 nodes, (do
        let next ← add? a 1
        return (upTo next nodes).map fun b ↦ (a, b)) =
          some ((upTo (a + 1) nodes).map fun b ↦ (a, b)) := by
      intro a ha
      rw [add?_one (mem_upTo.1 ha).2]
      rfl
    rw [edges?, mapM_eq_some_map hrows]
    rfl
  | star => rfl
  | ring =>
    rw [edges?]
    split
    · rfl
    · next hn =>
      rw [mapM_eq_some_map fun i hi ↦ ringEdge?_eq (mem_upTo.1 hi).2, edges, if_neg hn]
      rfl

end Checked

/-- Whenever there are links, they come in ascending order, each once and from the smaller node to
the greater one, they join all nodes, and each node has as many as its topology says. There are some
except on a circle of fewer than three nodes, and the words that are added on the way never wrap
around. -/
theorem edges_network (t : Topology) (nodes : UInt64) :
    t.edges? nodes = some (t.edges nodes) ∧
    ((∃ edges, t.edges nodes = .ok edges) ↔ (t = ring → 3 ≤ nodes.toNat)) ∧
    ∀ edges, t.edges nodes = .ok edges →
      edges.Pairwise Precedes ∧ (∀ a b, (a, b) ∈ edges → a < b ∧ b < nodes) ∧
      (1 ≤ nodes → (network nodes edges).Connected) ∧
      ∀ i, (network nodes edges).degree i = t.degree nodes.toNat i := by
  refine ⟨edges?_eq t nodes, exists_edges_eq_ok_iff, fun edges h ↦ ⟨pairwise_edges h, ?_, ?_, ?_⟩⟩
  · intro a b hmem
    have hlinks := ((edges_eq_ok h).2.2 a b).1 hmem
    exact ⟨hlinks.1, hlinks.2.1⟩
  · intro hone
    refine connected_network (UInt64.lt_iff_toNat_lt.2 ?_) h
    exact UInt64.le_iff_toNat_le.1 hone
  · exact degree_network h

theorem edges_network_circle : ∃ edges, ring.edges 5 = .ok edges ∧ edges.Pairwise Precedes ∧
    (network 5 edges).Connected ∧ ∀ i, (network 5 edges).degree i = 2 := by
  obtain ⟨-, hexists, hedges⟩ := edges_network ring 5
  obtain ⟨edges, h⟩ := hexists.2 fun _ ↦ by decide
  obtain ⟨hsorted, -, hconnected, hdegree⟩ := hedges edges h
  exact ⟨edges, h, hsorted, hconnected (by decide), hdegree⟩

end Multicloud.Topology
