import Mathlib.Data.List.Permutation
import Multicloud.Proofs.Graph.Acceptance
import Multicloud.Proofs.Text.Bytes
import Std.Data.TreeMap.Iterator

namespace Multicloud

namespace TextSet

variable {s t : TextSet}

theorem size_le_of_forall_mem (h : ∀ x ∈ s, x ∈ t) : s.size ≤ t.size := by
  have hnodup : s.toList.Nodup := s.distinct_toList.imp fun hne he ↦ hne (by simp [he])
  rw [← Std.ExtTreeSet.length_toList, ← Std.ExtTreeSet.length_toList]
  refine (hnodup.subperm fun x hx ↦ ?_).length_le
  exact Std.ExtTreeSet.mem_toList.2 (h x (Std.ExtTreeSet.mem_toList.1 hx))

theorem pairwise_bytes_toList (s : TextSet) :
    s.toList.Pairwise fun a b ↦ Text.bytes a < Text.bytes b :=
  s.ordered_toList.imp Text.compare_eq_lt.1

end TextSet

namespace ResourceMap

variable {m : ResourceMap} {blocked seen : TextSet} {target : String} {stack next : List String}

theorem waits_iff_mem_users {id dep : String} : m.Waits id dep ↔ id ∈ m.users.getD dep [] :=
  mem_users.symm

theorem mem_blocked {s : Sweep} {id : String} :
    id ∈ s.blocked ↔ ∃ n, s.waiting[id]? = some n ∧ 0 < n := by
  rw [Sweep.blocked, Std.ExtTreeMap.foldl_eq_foldl_toList, Sweep.mem_foldl_insert fun n ↦ 0 < n]
  simp [Std.ExtTreeMap.mem_toList_iff_getElem?_eq_some]

theorem mem_blocked_sweep {id : String} (h : Relation.TransGen m.Waits id id) :
    id ∈ m.sweep.blocked := by
  obtain ⟨dep, ⟨r, hr, -⟩, -⟩ := Relation.TransGen.head'_iff.1 h
  have hnot : id ∉ m.sweep.released := fun hmem ↦ m.releases_sweep.not_waits_self hmem h
  refine mem_blocked.2 ⟨r.pending m.sweep.released, ?_, Nat.pos_of_ne_zero fun hzero ↦ ?_⟩
  · rw [m.follows_sweep.waiting, hr, Option.map_some]
  · exact m.not_ready_sweep id ⟨hnot, r, hr, Resource.pending_eq_zero.1 hzero⟩

section Search

def pushFresh (blocked : TextSet) (next : List String) (acc : List String × TextSet) :
    List String × TextSet :=
  next.foldl (fun acc id ↦
    if blocked.contains id && !acc.2.contains id then (id :: acc.1, acc.2.insert id) else acc) acc

theorem meets_cons (users : TextMap (List String)) (n : Nat) (id : String) :
    meets users blocked target (n + 1) (id :: stack) seen =
      if target ∈ users.getD id [] then true
      else meets users blocked target n (pushFresh blocked (users.getD id []) (stack, seen)).1
        (pushFresh blocked (users.getD id []) (stack, seen)).2 := by
  simp only [meets, pushFresh, List.contains_iff_mem]

theorem pushFresh_cons (id : String) (acc : List String × TextSet) :
    pushFresh blocked (id :: next) acc =
      pushFresh blocked next
        (if id ∈ blocked ∧ id ∉ acc.2 then (id :: acc.1, acc.2.insert id) else acc) := by
  simp only [pushFresh, List.foldl_cons, Bool.and_eq_true, Bool.not_eq_true',
    ← Std.ExtTreeSet.contains_iff_mem, Bool.not_eq_true]

theorem mem_pushFresh_seen (next : List String) (acc : List String × TextSet) (x : String) :
    x ∈ (pushFresh blocked next acc).2 ↔ x ∈ acc.2 ∨ x ∈ next ∧ x ∈ blocked := by
  induction next generalizing acc with
  | nil => simp [pushFresh]
  | cons id next ih =>
    rw [pushFresh_cons, ih]
    by_cases he : x = id
    · subst he
      by_cases hb : x ∈ blocked <;> by_cases hs : x ∈ acc.2 <;> simp [hb, hs]
    · split <;> simp [he, Ne.symm he]

theorem mem_pushFresh_stack (next : List String) (acc : List String × TextSet) (x : String) :
    x ∈ (pushFresh blocked next acc).1 ↔
      x ∈ acc.1 ∨ x ∈ next ∧ x ∈ blocked ∧ x ∉ acc.2 := by
  induction next generalizing acc with
  | nil => simp [pushFresh]
  | cons id next ih =>
    rw [pushFresh_cons, ih]
    by_cases he : x = id
    · subst he
      by_cases hb : x ∈ blocked <;> by_cases hs : x ∈ acc.2 <;> simp [hb, hs]
    · split <;> simp [he, Ne.symm he]

theorem length_pushFresh (blocked : TextSet) (next : List String) (acc : List String × TextSet) :
    (pushFresh blocked next acc).1.length + acc.2.size =
      acc.1.length + (pushFresh blocked next acc).2.size := by
  induction next generalizing acc with
  | nil => rfl
  | cons id next ih =>
    have h := ih (if id ∈ blocked ∧ id ∉ acc.2 then (id :: acc.1, acc.2.insert id) else acc)
    rw [pushFresh_cons]
    split at h
    · next hid =>
      rw [if_pos hid]
      have hsize : (acc.2.insert id).size = acc.2.size + 1 := by
        rw [Std.ExtTreeSet.size_insert, if_neg (by simpa using hid.2)]
      simp only [List.length_cons, hsize] at h
      omega
    · next hid =>
      rw [if_neg hid]
      exact h

/-- What each state of a search from `target` is: those on the stack wait for `target`, and those
that have left it have been gone on from. -/
structure Searches (m : ResourceMap) (blocked : TextSet) (target : String) (stack : List String)
    (seen : TextSet) : Prop where
  reached : ∀ x ∈ stack, Relation.ReflTransGen m.Waits x target
  within : ∀ x ∈ seen, x ∈ blocked
  closed : ∀ x, x = target ∨ x ∈ seen → x ∈ stack ∨
    ¬ m.Waits target x ∧ ∀ y, m.Waits y x → y ∈ blocked → y ∈ seen

theorem searches_start (m : ResourceMap) (blocked : TextSet) (target : String) :
    Searches m blocked target [target] ∅ where
  reached x hx := by
    obtain rfl := List.mem_singleton.1 hx
    exact .refl
  within x hx := by simp at hx
  closed x hx := .inl (List.mem_singleton.2 (hx.resolve_right (by simp)))

theorem Searches.step {id : String} (h : Searches m blocked target (id :: stack) seen)
    (hnot : ¬ m.Waits target id) :
    Searches m blocked target (pushFresh blocked (m.users.getD id []) (stack, seen)).1
      (pushFresh blocked (m.users.getD id []) (stack, seen)).2 where
  reached x hx := by
    rcases (mem_pushFresh_stack _ _ x).1 hx with hx | ⟨hx, -, -⟩
    · exact h.reached x (.tail _ hx)
    · exact .head (waits_iff_mem_users.2 hx) (h.reached id (.head _))
  within x hx := by
    rcases (mem_pushFresh_seen _ _ x).1 hx with hx | ⟨-, hx⟩
    · exact h.within x hx
    · exact hx
  closed x hx := by
    simp only [mem_pushFresh_seen, mem_pushFresh_stack, ← waits_iff_mem_users] at hx ⊢
    by_cases he : x = id
    · subst he
      exact .inr ⟨hnot, fun y hy hb ↦ .inr ⟨hy, hb⟩⟩
    · by_cases hold : x = target ∨ x ∈ seen
      · rcases h.closed x hold with hmem | ⟨hself, hnext⟩
        · exact .inl (.inl ((List.mem_cons.1 hmem).resolve_left he))
        · exact .inr ⟨hself, fun y hy hb ↦ .inl (hnext y hy hb)⟩
      · obtain ⟨hself, hseen⟩ := not_or.1 hold
        obtain ⟨hy, hb⟩ := (hx.resolve_left hself).resolve_left hseen
        exact .inl (.inr ⟨hy, hb, hseen⟩)

/-- A search that has come to its end has gone on from all that waits for `target` and for which
`target` waits, so `target` does not wait for itself. -/
theorem Searches.not_waits_self (h : Searches m blocked target [] seen)
    (hblocked : ∀ x, Relation.TransGen m.Waits x x → x ∈ blocked) :
    ¬ Relation.TransGen m.Waits target target := by
  intro hcycle
  have hclosed {x : String} (hx : x = target ∨ x ∈ seen) := (h.closed x hx).resolve_left (by simp)
  have hseen {x : String} (hto : Relation.ReflTransGen m.Waits x target) :
      Relation.ReflTransGen m.Waits target x → x = target ∨ x ∈ seen := by
    induction hto using Relation.ReflTransGen.head_induction_on with
    | refl => exact fun _ ↦ .inl rfl
    | @head x y hxy hto ih =>
      intro hfrom
      have hself : Relation.TransGen m.Waits x x := .head' hxy (hto.trans hfrom)
      exact .inr ((hclosed (ih (hfrom.tail hxy))).2 x hxy (hblocked x hself))
  obtain ⟨x, hstep, hto⟩ := Relation.TransGen.head'_iff.1 hcycle
  exact (hclosed (hseen hto (.single hstep))).1 hstep

theorem meets_iff (hblocked : ∀ x, Relation.TransGen m.Waits x x → x ∈ blocked) {n : Nat}
    (h : Searches m blocked target stack seen)
    (hfuel : stack.length + blocked.size ≤ n + seen.size) :
    meets m.users blocked target n stack seen = true ↔
      Relation.TransGen m.Waits target target := by
  induction n generalizing stack seen with
  | zero =>
    have hsize := TextSet.size_le_of_forall_mem h.within
    obtain rfl : stack = [] := List.eq_nil_of_length_eq_zero (by omega)
    exact iff_of_false (by simp [meets]) (h.not_waits_self hblocked)
  | succ n ih =>
    cases stack with
    | nil => exact iff_of_false (by simp [meets]) (h.not_waits_self hblocked)
    | cons id stack =>
      rw [meets_cons]
      by_cases hmem : target ∈ m.users.getD id []
      · rw [if_pos hmem]
        exact iff_of_true rfl (.head' (waits_iff_mem_users.2 hmem) (h.reached id (.head _)))
      · rw [if_neg hmem]
        refine ih (h.step fun hw ↦ hmem (waits_iff_mem_users.1 hw)) ?_
        have hlength := length_pushFresh blocked (m.users.getD id []) (stack, seen)
        simp only [List.length_cons] at hfuel hlength
        omega

end Search

theorem mem_cycleMembers {id : String} :
    id ∈ m.cycleMembers ↔ Relation.TransGen m.Waits id id := by
  have hiff : onCycle m.users m.sweep.blocked id = true ↔ Relation.TransGen m.Waits id id := by
    refine meets_iff (fun x ↦ mem_blocked_sweep) (searches_start m _ id) ?_
    simp only [List.length_singleton, Std.ExtTreeSet.size_empty]
    omega
  rw [cycleMembers, List.mem_filter, Std.ExtTreeSet.mem_toList, hiff]
  exact and_iff_right_of_imp mem_blocked_sweep

theorem pairwise_bytes_cycleMembers (m : ResourceMap) :
    m.cycleMembers.Pairwise fun a b ↦ Text.bytes a < Text.bytes b :=
  (TextSet.pairwise_bytes_toList _).filter _

end ResourceMap

namespace ResourceGraph

variable {rs : List Resource}

/-- A cycle is told by its members, and only by these: what waits for a resource on a cycle, or is
waited for by one, is not among them unless it lies on a cycle as well. -/
theorem cyclicDependency_exact (w : String) (hd : (rs.map Resource.id).Nodup) (hr : Resolves rs)
    (hc : ¬ Acyclic rs) :
    ∃ members, ofResources w rs = .error (.cyclicDependency members) ∧ members ≠ [] ∧
      members.Pairwise (fun a b ↦ Text.bytes a < Text.bytes b) ∧
      ∀ id, id ∈ members ↔ Relation.TransGen (Depends rs) id id := by
  obtain ⟨m, hindex, hm⟩ := index_of_nodup hd
  have hclosed := (closed_iff hm).2 hr
  have hlength : m.sweep.order.length ≠ m.size := fun he ↦
    hc ((acyclic_iff hm).1 ((ResourceMap.length_order_sweep_iff hclosed).1 he))
  have hwaits : m.Waits = Depends rs := funext₂ fun id dep ↦ propext (waits_iff hm id dep)
  have hmem (id : String) : id ∈ m.cycleMembers ↔ Relation.TransGen (Depends rs) id id := by
    rw [ResourceMap.mem_cycleMembers, hwaits]
  refine ⟨m.cycleMembers, ?_, fun hnil ↦ hc fun id hid ↦ ?_, m.pairwise_bytes_cycleMembers, hmem⟩
  · rw [ofResources_eq w hindex, dangling?_eq_none.2 hclosed]
    exact if_pos hlength
  · simpa [hnil] using (hmem id).2 hid

def tangled : List Resource :=
  [⟨"d", .volume, ∅, .of ["d", "c"]⟩, ⟨"c", .volume, ∅, .of ["b"]⟩,
    ⟨"b", .computeNode, ∅, .of ["a", "free"]⟩, ⟨"a", .computeNode, ∅, .of ["b"]⟩,
    ⟨"free", .computeNode, ∅, ∅⟩]

theorem cyclicDependency_exact_tangled :
    (tangled.map Resource.id).Nodup ∧ Resolves tangled ∧ ¬ Acyclic tangled ∧
      ofResources "default/w" tangled = .error (.cyclicDependency ["a", "b", "d"]) ∧
      ∀ id, id ∈ ["a", "b", "d"] ↔ Relation.TransGen (Depends tangled) id id := by
  have hd : (tangled.map Resource.id).Nodup := by decide
  have hr : Resolves tangled := by simp [Resolves, tangled, TextSet.of, Std.ExtTreeSet.mem_ofList]
  have hself : Depends tangled "d" "d" :=
    ⟨⟨"d", .volume, ∅, .of ["d", "c"]⟩, .head _, rfl,
      by simp [TextSet.of, Std.ExtTreeSet.mem_ofList]⟩
  have hc : ¬ Acyclic tangled := fun h ↦ h "d" (.single hself)
  have htold : ofResources "default/w" tangled = .error (.cyclicDependency ["a", "b", "d"]) := by
    simp only [ofResources, ResourceMap.cycleMembers, ResourceMap.sweep_eq_runByList]
    decide +kernel
  obtain ⟨members, herror, -, -, hmem⟩ := cyclicDependency_exact "default/w" hd hr hc
  rw [htold, Except.error.injEq, GraphError.cyclicDependency.injEq] at herror
  exact ⟨hd, hr, hc, htold, herror ▸ hmem⟩

end ResourceGraph

end Multicloud
