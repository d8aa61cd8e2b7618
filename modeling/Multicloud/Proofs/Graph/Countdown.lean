import Mathlib.Data.Multiset.AddSub
import Multicloud.Proofs.Graph.Cycle

namespace Multicloud

/-- What is waited for, and what waits for it. -/
abbrev Edge := String × String

/-- The sweep with its counts and its heap kept one edge at a time: an id may be on the heap more
than once, and a count may be taken down more than once. -/
structure Countdown where
  /-- Earliest first. -/
  order : List String
  heap : Multiset String
  /-- How many edges to each id are left. -/
  degrees : TextMap Nat

namespace Countdown

section Edges

def edges (entries : List (String × Resource)) : List Edge :=
  entries.flatMap fun e ↦ e.2.dependsOn.toList.map fun dep ↦ (dep, e.1)

def dependents (es : List Edge) : TextMap (List String) :=
  es.foldl (fun m e ↦ m.insert e.1 (m.getD e.1 [] ++ [e.2])) ∅

def zeros (entries : List (String × Resource)) : TextMap Nat :=
  entries.foldl (fun m e ↦ m.insert e.1 0) ∅

def countUp (es : List Edge) (degrees : TextMap Nat) : TextMap Nat :=
  es.foldl (fun m e ↦ m.insert e.2 (m.getD e.2 0 + 1)) degrees

def start (entries : List (String × Resource)) : Countdown :=
  let degrees := countUp (edges entries) (zeros entries)
  { order := []
    heap := .ofList ((degrees.toList.filter fun e ↦ e.2 = 0).map Prod.fst)
    degrees }

end Edges

/-- Takes down the count of an id, which is pushed when none is left; `none` if none was left. -/
def relieve (s : Countdown) (id : String) : Option Countdown :=
  match s.degrees[id]? with
  | none => some s
  | some 0 => none
  | some 1 => some { s with degrees := s.degrees.insert id 0, heap := id ::ₘ s.heap }
  | some (n + 2) => some { s with degrees := s.degrees.insert id (n + 1) }

structure Pops (heap : Multiset String) (id : String) (rest : Multiset String) : Prop where
  heap_eq : heap = id ::ₘ rest
  least : ∀ x ∈ rest, (compare id x).isLE

/-- One turn of the loop, and what comes of it. -/
inductive Turn (users : TextMap (List String)) (s : Countdown) : Option Countdown → Prop
  | pop {id : String} {rest : Multiset String} (h : Pops s.heap id rest) :
    Turn users s ((users.getD id []).foldlM relieve
      { s with order := s.order ++ [id], heap := rest })

inductive After (entries : List (String × Resource)) : Nat → Countdown → Prop
  | start : After entries 0 (start entries)
  | turn {n : Nat} {s s' : Countdown} (h : After entries n s)
      (ht : Turn (dependents (edges entries)) s (some s')) : After entries (n + 1) s'

section Edges

variable {rs : ResourceMap} {entries : List (String × Resource)}

theorem mem_edges {e : Edge} :
    e ∈ edges entries ↔ ∃ r : Resource, (e.2, r) ∈ entries ∧ e.1 ∈ r.dependsOn := by
  obtain ⟨dep, id⟩ := e
  simp only [edges, List.mem_flatMap, List.mem_map, Prod.mk.injEq, Prod.exists]
  constructor
  · rintro ⟨id, r, hmem, dep, hdep, rfl, rfl⟩
    exact ⟨r, hmem, Std.ExtTreeSet.mem_toList.1 hdep⟩
  · rintro ⟨r, hmem, hdep⟩
    exact ⟨id, r, hmem, dep, Std.ExtTreeSet.mem_toList.2 hdep, rfl, rfl⟩

theorem mem_ids {id : String} {r : Resource} (h : (id, r) ∈ entries) :
    id ∈ entries.map Prod.fst := List.mem_map.2 ⟨(id, r), h, rfl⟩

theorem edges_cons (e : String × Resource) (entries : List (String × Resource)) :
    edges (e :: entries) = (e.2.dependsOn.toList.map fun dep ↦ (dep, e.1)) ++ edges entries := rfl

theorem nodup_edges (h : (entries.map Prod.fst).Nodup) : (edges entries).Nodup := by
  induction entries with
  | nil => exact .nil
  | cons e entries ih =>
    obtain ⟨hmem, h⟩ := List.nodup_cons.1 h
    rw [edges_cons, List.nodup_append]
    refine ⟨e.2.nodup_dependsOn.map fun a b he ↦ congrArg Prod.fst he, ih h, ?_⟩
    rintro a ha b hb rfl
    obtain ⟨dep, -, rfl⟩ := List.mem_map.1 ha
    obtain ⟨r, hr, -⟩ := mem_edges.1 hb
    exact hmem (mem_ids hr)

theorem getD_dependents (es : List Edge) (x : String) :
    (dependents es).getD x [] = (es.filter fun e ↦ e.1 = x).map Prod.snd := by
  have h (m : TextMap (List String)) :
      (es.foldl (fun m e ↦ m.insert e.1 (m.getD e.1 [] ++ [e.2])) m).getD x [] =
        m.getD x [] ++ (es.filter fun e ↦ e.1 = x).map Prod.snd := by
    induction es generalizing m with
    | nil => simp
    | cons e es ih =>
      rw [List.foldl_cons, ih, Std.ExtTreeMap.getD_insert]
      by_cases he : e.1 = x
      · simp [he]
      · simp [he]
  rw [dependents, h]
  simp

theorem mem_dependents {id x : String} :
    id ∈ (dependents (edges entries)).getD x [] ↔
      ∃ r : Resource, (id, r) ∈ entries ∧ x ∈ r.dependsOn := by
  rw [getD_dependents]
  simp only [List.mem_map, List.mem_filter, mem_edges, decide_eq_true_eq]
  constructor
  · rintro ⟨e, ⟨⟨r, hr, hdep⟩, rfl⟩, rfl⟩
    exact ⟨r, hr, hdep⟩
  · rintro ⟨r, hr, hdep⟩
    exact ⟨(x, id), ⟨⟨r, hr, hdep⟩, rfl⟩, rfl⟩

theorem nodup_dependents (h : (entries.map Prod.fst).Nodup) (x : String) :
    ((dependents (edges entries)).getD x []).Nodup := by
  rw [getD_dependents]
  refine ((nodup_edges h).filter _).map_on ?_
  intro e he e' he' heq
  simp only [List.mem_filter, decide_eq_true_eq] at he he'
  exact Prod.ext (he.2.trans he'.2.symm) heq

theorem getElem?_zeros (entries : List (String × Resource)) (x : String) :
    (zeros entries)[x]? = if x ∈ entries.map Prod.fst then some 0 else none := by
  have h (m : TextMap Nat) : (entries.foldl (fun m e ↦ m.insert e.1 0) m)[x]? =
      if x ∈ entries.map Prod.fst then some 0 else m[x]? := by
    induction entries generalizing m with
    | nil => simp
    | cons e entries ih =>
      rw [List.foldl_cons, ih, Std.ExtTreeMap.getElem?_insert]
      by_cases he : x = e.1
      · simp [he]
      · simp [-List.mem_map, he, Ne.symm he]
  rw [zeros, h]
  simp

theorem getElem?_countUp {es : List Edge} {m : TextMap Nat} (h : ∀ e ∈ es, e.2 ∈ m) (x : String) :
    (countUp es m)[x]? = m[x]?.map (· + es.countP fun e ↦ e.2 = x) := by
  induction es generalizing m with
  | nil => simp [countUp]
  | cons e es ih =>
    obtain ⟨hmem, h⟩ := List.forall_mem_cons.1 h
    have h' : ∀ e' ∈ es, e'.2 ∈ m.insert e.2 (m.getD e.2 0 + 1) := fun e' he' ↦
      Std.ExtTreeMap.mem_insert.2 (.inr (h e' he'))
    have ih := ih h'
    rw [countUp] at ih
    rw [countUp, List.foldl_cons, ih, Std.ExtTreeMap.getElem?_insert, List.countP_cons]
    obtain ⟨n, hn⟩ := Option.isSome_iff_exists.1 (Std.ExtTreeMap.mem_iff_isSome_getElem?.1 hmem)
    by_cases he : e.2 = x
    · subst he
      simp [hn, Std.ExtTreeMap.getD_eq_getD_getElem?, Nat.add_assoc, Nat.add_comm 1]
    · simp [he]

theorem countP_edges (h : (entries.map Prod.fst).Nodup) {id : String} {r : Resource}
    (hr : (id, r) ∈ entries) :
    ((edges entries).countP fun e ↦ e.2 = id) = r.dependsOn.toList.length := by
  induction entries with
  | nil => cases hr
  | cons e entries ih =>
    obtain ⟨hmem, h⟩ := List.nodup_cons.1 h
    rw [edges_cons, List.countP_append, List.countP_map]
    rcases List.mem_cons.1 hr with rfl | hr
    · have hnone : ((edges entries).countP fun e ↦ e.2 = id) = 0 := by
        rw [List.countP_eq_zero]
        intro e he heq
        obtain ⟨r', hr', -⟩ := mem_edges.1 he
        rw [of_decide_eq_true heq] at hr'
        exact hmem (mem_ids hr')
      rw [hnone, Nat.add_zero, List.countP_eq_length]
      intro dep _
      exact decide_eq_true rfl
    · have hne : e.1 ≠ id := by
        rintro rfl
        exact hmem (mem_ids hr)
      rw [ih h hr]
      simp [List.countP_eq_zero, hne]

end Edges

section Relieve

theorem relieve_of_eq_succ {s : Countdown} {id : String} {n : Nat}
    (h : s.degrees[id]? = some (n + 1)) :
    s.relieve id = some
      { s with
        degrees := s.degrees.insert id n
        heap := if n = 0 then id ::ₘ s.heap else s.heap } := by
  cases n with
  | zero => simp [relieve, h]
  | succ n => simp [relieve, h]

/-- Edges to different ids, each with a count that is not zero, are taken down one after the
other. -/
theorem foldlM_relieve {ids : List String} (hd : ids.Nodup) {s : Countdown}
    (h : ∀ id ∈ ids, ∃ n, s.degrees[id]? = some (n + 1)) :
    ∃ s', ids.foldlM relieve s = some s' ∧ s'.order = s.order ∧
      (∀ x, s'.degrees[x]? = if x ∈ ids then s.degrees[x]?.map (· - 1) else s.degrees[x]?) ∧
      ∀ x, s'.heap.count x =
        s.heap.count x + if x ∈ ids ∧ s.degrees[x]? = some 1 then 1 else 0 := by
  induction ids generalizing s with
  | nil => exact ⟨s, rfl, rfl, by simp, by simp⟩
  | cons id ids ih =>
    obtain ⟨hmem, hd⟩ := List.nodup_cons.1 hd
    obtain ⟨⟨n, hn⟩, h⟩ := List.forall_mem_cons.1 h
    have hother {x : String} (hx : x ≠ id) : (s.degrees.insert id n)[x]? = s.degrees[x]? := by
      simp [Std.ExtTreeMap.getElem?_insert, Ne.symm hx]
    have hne {x : String} (hx : x ∈ ids) : x ≠ id := fun he ↦ hmem (he ▸ hx)
    obtain ⟨s', hs', horder, hdegrees, hheap⟩ := ih hd (s := ⟨s.order,
      if n = 0 then id ::ₘ s.heap else s.heap, s.degrees.insert id n⟩)
      fun x hx ↦ by rw [hother (hne hx)]; exact h x hx
    refine ⟨s', ?_, horder, fun x ↦ ?_, fun x ↦ ?_⟩
    · rw [List.foldlM_cons, relieve_of_eq_succ hn]
      exact hs'
    · rw [hdegrees]
      by_cases he : x = id
      · subst he
        simp [hmem, hn]
      · simp [he, hother he]
    · rw [hheap]
      by_cases he : x = id
      · subst he
        by_cases hzero : n = 0 <;> simp [hmem, hn, hzero]
      · have hcount : (if n = 0 then id ::ₘ s.heap else s.heap).count x = s.heap.count x := by
          split
          · exact Multiset.count_cons_of_ne he _
          · rfl
        simp [he, hother he, hcount]

end Relieve

variable {rs : ResourceMap} {entries : List (String × Resource)} {s : Countdown} {n : Nat}

/-- What each state is, in terms of its order. -/
structure Follows (rs : ResourceMap) (s : Countdown) : Prop where
  releases : rs.Releases s.order.reverse
  degrees : ∀ id : String, s.degrees[id]? = rs[id]?.map (Resource.pending s.order)
  nodup_heap : s.heap.Nodup
  mem_heap : ∀ id, id ∈ s.heap ↔ rs.Ready s.order.reverse id

section Listed

variable (hp : entries.Perm rs.toList)

include hp

theorem mem_entries {id : String} {r : Resource} : (id, r) ∈ entries ↔ rs[id]? = some r := by
  rw [hp.mem_iff, Std.ExtTreeMap.mem_toList_iff_getElem?_eq_some]

theorem nodup_ids : (entries.map Prod.fst).Nodup := by
  rw [(hp.map Prod.fst).nodup_iff, Std.ExtTreeMap.map_fst_toList_eq_keys]
  exact rs.nodup_keys

theorem degrees_start (id : String) :
    (start entries).degrees[id]? = rs[id]?.map (Resource.pending []) := by
  have hzero {id : String} {r : Resource} (hr : (id, r) ∈ entries) :
      (zeros entries)[id]? = some 0 := by
    rw [getElem?_zeros, if_pos (mem_ids hr)]
  have hcounted : ∀ e ∈ edges entries, e.2 ∈ zeros entries := by
    intro e he
    obtain ⟨r, hr, -⟩ := mem_edges.1 he
    exact Std.ExtTreeMap.mem_iff_isSome_getElem?.2 (by rw [hzero hr]; rfl)
  have hstart : (start entries).degrees = countUp (edges entries) (zeros entries) := rfl
  rw [hstart, getElem?_countUp hcounted]
  cases hr : rs[id]? with
  | none =>
    have hnot : id ∉ entries.map Prod.fst := by
      rintro hmem
      obtain ⟨e, he, rfl⟩ := List.mem_map.1 hmem
      rw [(mem_entries hp).1 he] at hr
      cases hr
    rw [getElem?_zeros, if_neg hnot]
    rfl
  | some r =>
    have hmem := (mem_entries hp).2 hr
    rw [hzero hmem, Option.map_some, Option.map_some, countP_edges (nodup_ids hp) hmem]
    simp [Resource.pending, List.countP_eq_length_filter]

theorem follows_start : Follows rs (start entries) where
  releases := .nil
  degrees := degrees_start hp
  nodup_heap := by
    rw [start, Multiset.coe_nodup]
    refine List.Nodup.sublist (List.filter_sublist.map _) ?_
    rw [Std.ExtTreeMap.map_fst_toList_eq_keys]
    exact Std.ExtTreeMap.nodup_keys
  mem_heap id := by
    have hmem : id ∈ (start entries).heap ↔ (start entries).degrees[id]? = some 0 := by
      simp [start, Std.ExtTreeMap.mem_toList_iff_getElem?_eq_some]
    rw [hmem, degrees_start hp, Option.map_eq_some_iff]
    simp only [Resource.pending_eq_zero]
    exact ⟨fun h ↦ ⟨List.not_mem_nil, h⟩, fun h ↦ h.2⟩

section Pop

variable {id : String} {rest : Multiset String}

omit hp in
theorem pending_reverse (ids : List String) (r : Resource) :
    r.pending ids.reverse = r.pending ids := by
  simp [Resource.pending]

omit hp in
theorem pending_concat (hid : id ∉ s.order) (r : Resource) :
    r.pending (s.order ++ [id]) + (if id ∈ r.dependsOn then 1 else 0) = r.pending s.order := by
  have hid' : id ∉ s.order.reverse := by simpa using hid
  have h := Resource.pending_cons hid' r
  rwa [← List.reverse_concat, pending_reverse, pending_reverse] at h

omit hp in
theorem Follows.mem_rest (hs : Follows rs s) (h : Pops s.heap id rest) (x : String) :
    x ∈ rest ↔ id ≠ x ∧ rs.Ready s.order.reverse x := by
  have hnodup : id ∉ rest ∧ rest.Nodup := Multiset.nodup_cons.1 (h.heap_eq ▸ hs.nodup_heap)
  rw [← hs.mem_heap, h.heap_eq, Multiset.mem_cons]
  constructor
  · intro hx
    exact ⟨fun he ↦ hnodup.1 (he ▸ hx), .inr hx⟩
  · rintro ⟨hne, he | hx⟩
    · exact absurd he.symm hne
    · exact hx

omit hp in
theorem Follows.ready_of_pops (hs : Follows rs s) (h : Pops s.heap id rest) :
    rs.Ready s.order.reverse id ∧ ∀ x, rs.Ready s.order.reverse x → (compare id x).isLE := by
  refine ⟨(hs.mem_heap id).1 (h.heap_eq ▸ Multiset.mem_cons_self id rest), fun x hx ↦ ?_⟩
  by_cases he : id = x
  · simp [he]
  · exact h.least x ((hs.mem_rest h x).2 ⟨he, hx⟩)

theorem mem_dependents_iff (x : String) : x ∈ (dependents (edges entries)).getD id [] ↔
    ∃ r : Resource, rs[x]? = some r ∧ id ∈ r.dependsOn := by
  rw [mem_dependents]
  exact exists_congr fun r ↦ and_congr_left' (mem_entries hp)

theorem Follows.pushes_iff (hs : Follows rs s) (hid : id ∉ s.order) (x : String) :
    (x ∈ (dependents (edges entries)).getD id [] ∧ s.degrees[x]? = some 1) ↔
      ∃ r : Resource, rs[x]? = some r ∧ id ∈ r.dependsOn ∧ r.pending s.order.reverse ≤ 1 := by
  rw [mem_dependents_iff hp, hs.degrees]
  constructor
  · rintro ⟨⟨r, hr, hdep⟩, he⟩
    rw [hr, Option.map_some, Option.some.injEq] at he
    exact ⟨r, hr, hdep, by rw [pending_reverse, he]⟩
  · rintro ⟨r, hr, hdep, hle⟩
    have hdown := pending_concat hid r
    rw [if_pos hdep] at hdown
    rw [pending_reverse] at hle
    exact ⟨⟨r, hr, hdep⟩, by rw [hr, Option.map_some]; congr 1; omega⟩

/-- Only what waits for the id that is popped is counted down, each once and from a count that is
not zero. -/
theorem Follows.pop (hs : Follows rs s) (h : Pops s.heap id rest) :
    ∃ s', ((dependents (edges entries)).getD id []).foldlM relieve
        { s with order := s.order ++ [id], heap := rest } = some s' ∧
      s'.order = s.order ++ [id] ∧ Follows rs s' := by
  obtain ⟨hready, hleast⟩ := hs.ready_of_pops h
  have hid : id ∉ s.order := by simpa using hready.1
  have hcons : (s.order ++ [id]).reverse = id :: s.order.reverse := by simp
  obtain ⟨s', hs', horder, hdegrees, hheap⟩ := foldlM_relieve
    (nodup_dependents (nodup_ids hp) id) (s := ⟨s.order ++ [id], rest, s.degrees⟩) fun x hx ↦ by
      obtain ⟨r, hr, hdep⟩ := (mem_dependents_iff hp x).1 hx
      have hdown := pending_concat hid r
      rw [if_pos hdep] at hdown
      exact ⟨r.pending (s.order ++ [id]), by rw [hs.degrees, hr, Option.map_some, hdown]⟩
  dsimp only at horder hdegrees hheap
  refine ⟨s', hs', horder, ⟨?_, fun x ↦ ?_, ?_, fun x ↦ ?_⟩⟩
  · rw [horder, hcons]
    exact .cons hs.releases hready hleast
  · rw [hdegrees, hs.degrees, horder]
    cases hr : rs[x]? with
    | none => simp
    | some r =>
      have hdown := pending_concat hid r
      by_cases hdep : id ∈ r.dependsOn <;>
        simp [mem_dependents_iff hp, hr, hdep] at hdown ⊢ <;> omega
  · rw [Multiset.nodup_iff_count_le_one]
    intro x
    rw [hheap]
    split
    · next hx =>
      -- What is pushed had a count, so that it was not on the heap.
      obtain ⟨r, hr, hdep, -⟩ := (hs.pushes_iff hp hid x).1 hx
      have hnot : x ∉ rest := by
        intro hmem
        obtain ⟨-, r', hr', hdeps⟩ := ((hs.mem_rest h x).1 hmem).2
        rw [hr, Option.some.injEq] at hr'
        exact hready.1 (hdeps id (hr' ▸ hdep))
      rw [Multiset.count_eq_zero_of_notMem hnot]
    · have hnodup := (Multiset.nodup_cons.1 (h.heap_eq ▸ hs.nodup_heap)).2
      exact Multiset.nodup_iff_count_le_one.1 hnodup x
  · rw [horder, hcons, ResourceMap.ready_cons hs.releases hready, ← hs.pushes_iff hp hid,
      ← hs.mem_rest h, ← Multiset.count_pos, ← Multiset.count_pos, hheap]
    split <;> simp_all

end Pop

theorem Follows.turn (hs : Follows rs s) {result : Option Countdown}
    (h : Turn (dependents (edges entries)) s result) :
    ∃ s', result = some s' ∧ s'.order.length = s.order.length + 1 ∧ Follows rs s' := by
  obtain ⟨h⟩ := h
  obtain ⟨s', hs', horder, hfollows⟩ := hs.pop hp h
  exact ⟨s', hs', by rw [horder, List.length_append, List.length_singleton], hfollows⟩

theorem After.follows (h : After entries n s) : Follows rs s ∧ s.order.length = n := by
  induction h with
  | start => exact ⟨follows_start hp, rfl⟩
  | turn _ ht ih =>
    obtain ⟨s', he, hlength, hfollows⟩ := ih.1.turn hp ht
    cases he
    exact ⟨hfollows, by rw [hlength, ih.2]⟩

end Listed

theorem exists_pops {heap : Multiset String} (h : heap ≠ 0) : ∃ id rest, Pops heap id rest := by
  induction heap using Multiset.induction_on with
  | empty => exact absurd rfl h
  | cons x heap ih =>
    by_cases hempty : heap = 0
    · subst hempty
      exact ⟨x, 0, rfl, by simp⟩
    · obtain ⟨id, rest, rfl, hleast⟩ := ih hempty
      by_cases hle : (compare x id).isLE
      · refine ⟨x, id ::ₘ rest, rfl, fun y hy ↦ ?_⟩
        rcases Multiset.mem_cons.1 hy with rfl | hy
        · exact hle
        · exact Std.TransCmp.isLE_trans hle (hleast y hy)
      · refine ⟨id, x ::ₘ rest, Multiset.cons_swap x id rest, fun y hy ↦ ?_⟩
        rcases Multiset.mem_cons.1 hy with rfl | hy
        · have hgt : compare y id = .gt := by simpa using hle
          rw [Std.OrientedCmp.gt_iff_lt.1 hgt]
          rfl
        · exact hleast y hy

end Countdown

namespace ResourceMap

variable {rs : ResourceMap} {released released' : List String}

theorem Releases.eq_of_length_eq (h : rs.Releases released) (h' : rs.Releases released')
    (hlength : released.length = released'.length) : released = released' := by
  induction h generalizing released' with
  | nil => exact (List.eq_nil_of_length_eq_zero hlength.symm).symm
  | @cons id released h hready hleast ih =>
    cases h' with
    | nil => simp at hlength
    | @cons id' released' h' hready' hleast' =>
      obtain rfl := ih h' (Nat.succ.inj hlength)
      have hle := hleast id' hready'
      have hge := hleast' id hready
      rw [Std.LawfulEqOrd.eq_of_compare (Std.OrientedCmp.isLE_antisymm hle hge)]

theorem Releases.drop (h : rs.Releases released) (n : Nat) : rs.Releases (released.drop n) := by
  induction n generalizing released with
  | zero => exact h
  | succ n ih =>
    cases h with
    | nil => exact .nil
    | cons h _ _ => exact ih h

theorem Releases.length_le_of_not_ready (h : rs.Releases released) (h' : rs.Releases released')
    (hnone : ∀ id, ¬ rs.Ready released id) : released'.length ≤ released.length := by
  by_contra hlt
  -- The release after as many others was of an id that was ready.
  have hindex : released'.length - released.length - 1 < released'.length := by omega
  have hlate := h'.drop (released'.length - released.length - 1)
  rw [List.drop_eq_getElem_cons hindex] at hlate
  cases hlate with
  | cons hearly hready _ =>
    have hsame := h.eq_of_length_eq hearly (by rw [List.length_drop]; omega)
    rw [hsame] at hnone
    exact hnone _ hready

theorem Releases.eq_of_not_ready (h : rs.Releases released) (h' : rs.Releases released')
    (hnone : ∀ id, ¬ rs.Ready released id) (hnone' : ∀ id, ¬ rs.Ready released' id) :
    released = released' :=
  h.eq_of_length_eq h' (Nat.le_antisymm (h'.length_le_of_not_ready h hnone')
    (h.length_le_of_not_ready h' hnone))

/-- What is left when nothing is ready leads to a cycle. -/
theorem Releases.not_mem_iff_of_not_ready (hc : rs.Closed) (h : rs.Releases released)
    (hnone : ∀ id, ¬ rs.Ready released id) {id : String} (hid : id ∈ rs) :
    id ∉ released ↔
      ∃ c, Relation.ReflTransGen rs.Waits id c ∧ Relation.TransGen rs.Waits c c := by
  constructor
  · intro hleft
    by_contra hnot
    have hfree (c : String) (hreach : Relation.ReflTransGen rs.Waits id c) :
        ¬ Relation.TransGen rs.Waits c c := fun hcycle ↦ hnot ⟨c, hreach, hcycle⟩
    obtain ⟨x, hx⟩ := exists_ready_of_left hc hfree hid hleft
    exact hnone x hx
  · rintro ⟨c, hreach, hcycle⟩ hmem
    rcases Relation.reflTransGen_iff_eq_or_transGen.1 hreach with rfl | hreach
    · exact h.not_waits_self hmem hcycle
    · exact h.not_waits_self (h.waits_mem hmem hreach) hcycle

end ResourceMap

namespace Countdown

variable {rs : ResourceMap} {entries : List (String × Resource)} {s : Countdown} {n : Nat}

theorem Follows.heap_eq_zero_iff (hs : Follows rs s) :
    s.heap = 0 ↔ ∀ id, ¬ rs.Ready s.order.reverse id := by
  rw [Multiset.eq_zero_iff_forall_notMem]
  exact forall_congr' fun id ↦ not_congr (hs.mem_heap id)

theorem Follows.length_le (hs : Follows rs s) : s.order.length ≤ rs.size := by
  rw [← List.length_reverse]
  exact hs.releases.length_le

/-- An id is in the order or on the heap when nothing it depends on is left, and once. -/
theorem Follows.count_add_count (hs : Follows rs s) (id : String) :
    s.order.count id + s.heap.count id = if s.degrees[id]? = some 0 then 1 else 0 := by
  have hdegree : s.degrees[id]? = some 0 ↔ id ∈ s.order ∨ id ∈ s.heap := by
    rw [hs.degrees, hs.mem_heap, Option.map_eq_some_iff]
    simp only [Resource.pending_eq_zero]
    constructor
    · rintro ⟨r, hr, hdeps⟩
      by_cases hid : id ∈ s.order
      · exact .inl hid
      · exact .inr ⟨by simpa using hid, r, hr, fun dep hdep ↦ by simpa using hdeps dep hdep⟩
    · rintro (hid | ⟨-, r, hr, hdeps⟩)
      · obtain ⟨r, hr, hdeps⟩ := hs.releases.dependencies_mem (List.mem_reverse.2 hid)
        exact ⟨r, hr, fun dep hdep ↦ List.mem_reverse.1 (hdeps dep hdep)⟩
      · exact ⟨r, hr, fun dep hdep ↦ List.mem_reverse.1 (hdeps dep hdep)⟩
  have horder : s.order.Nodup := List.nodup_reverse.1 hs.releases.nodup
  by_cases hid : id ∈ s.order
  · have hnot : id ∉ s.heap := fun hmem ↦
      ((hs.mem_heap id).1 hmem).1 (List.mem_reverse.2 hid)
    rw [if_pos (hdegree.2 (.inl hid)), List.count_eq_one_of_mem horder hid,
      Multiset.count_eq_zero_of_notMem hnot]
  · rw [List.count_eq_zero_of_not_mem hid]
    by_cases hmem : id ∈ s.heap
    · rw [if_pos (hdegree.2 (.inr hmem)), Multiset.count_eq_one_of_mem hs.nodup_heap hmem]
    · rw [if_neg (fun hzero ↦ (hdegree.1 hzero).elim hid hmem),
        Multiset.count_eq_zero_of_notMem hmem]

theorem After.exists_turn (hp : entries.Perm rs.toList) (h : After entries n s)
    (hheap : s.heap ≠ 0) : ∃ s', Turn (dependents (edges entries)) s (some s') := by
  obtain ⟨id, rest, hpops⟩ := exists_pops hheap
  obtain ⟨s', hs', -, -⟩ := (h.follows hp).1.pop hp hpops
  exact ⟨s', hs' ▸ .pop hpops⟩

structure Shows (s : Countdown) (t : Sweep) : Prop where
  order : s.order = t.order
  degrees : s.degrees = t.waiting
  heap : ∀ id, id ∈ s.heap ↔ id ∈ t.ready

theorem Follows.shows (hs : Follows rs s) {t : Sweep} (ht : Sweep.Follows rs t)
    (he : s.order.reverse = t.released) : s.Shows t where
  order := by rw [Sweep.order, ← he, List.reverse_reverse]
  degrees := by
    refine Std.ExtTreeMap.ext_getElem? fun id ↦ ?_
    have hpending : Resource.pending t.released = Resource.pending s.order := by
      rw [← he]
      exact funext (pending_reverse s.order)
    rw [hs.degrees, ht.waiting, hpending]
  heap id := by rw [hs.mem_heap, ht.ready, he]

/-- The loop and the sweep go through the same states. -/
theorem After.shows (hp : entries.Perm rs.toList) (h : After entries n s) :
    s.Shows ((Sweep.start rs).run rs.users n) := by
  obtain ⟨hfollows, hlength⟩ := h.follows hp
  have ht := (Sweep.follows_start rs).run n
  refine hfollows.shows ht (hfollows.releases.eq_of_length_eq ht.releases ?_)
  rw [List.length_reverse, hlength]
  rcases @Sweep.run_exhausted rs n (Sweep.start rs) with hnone | he
  · have hmost := @Sweep.length_run_le rs n (Sweep.start rs)
    have hleast := ht.releases.length_le_of_not_ready hfollows.releases fun id hid ↦
      hnone id ((ht.ready id).2 hid)
    rw [List.length_reverse, hlength] at hleast
    exact Nat.le_antisymm hleast (Nat.le_trans hmost (Nat.le_of_eq (Nat.zero_add n)))
  · exact (he.trans (Nat.zero_add n)).symm

theorem exists_after_heap_eq_zero (hp : entries.Perm rs.toList) :
    ∃ n s, After entries n s ∧ s.heap = 0 := by
  by_contra hnone
  have hgoes (n : Nat) : ∃ s, After entries n s := by
    induction n with
    | zero => exact ⟨_, .start⟩
    | succ n ih =>
      obtain ⟨s, hs⟩ := ih
      obtain ⟨s', ht⟩ := hs.exists_turn hp fun hheap ↦ hnone ⟨n, s, hs, hheap⟩
      exact ⟨s', hs.turn ht⟩
  obtain ⟨s, hs⟩ := hgoes (rs.size + 1)
  obtain ⟨hfollows, hlength⟩ := hs.follows hp
  have hle := hfollows.length_le
  omega

/-- In whatever order the resources are gone through, the degree of an id is the number of its
dependencies that are left, an id is in the order or on the heap when its degree is zero, and once,
no count is taken down from zero, and the loop ends, after as many turns as it puts ids in order.
Its states and its order are those of the sweep, and what it leaves out leads to a cycle. -/
theorem countdown_exact (hc : rs.Closed) (hp : entries.Perm rs.toList) :
    (∀ n s, After entries n s →
      (∀ id : String, s.degrees[id]? = rs[id]?.map (Resource.pending s.order)) ∧
      (∀ id, s.order.count id + s.heap.count id = if s.degrees[id]? = some 0 then 1 else 0) ∧
      ¬ Turn (dependents (edges entries)) s none ∧
      (s.heap ≠ 0 → ∃ s', Turn (dependents (edges entries)) s (some s')) ∧
      s.order.length = n ∧ n ≤ rs.size ∧ s.Shows ((Sweep.start rs).run rs.users n) ∧
      (s.heap = 0 → s.order = rs.sweep.order ∧ ∀ id ∈ rs, id ∉ s.order ↔
        ∃ c, Relation.ReflTransGen rs.Waits id c ∧ Relation.TransGen rs.Waits c c)) ∧
    ∃ n s, After entries n s ∧ s.heap = 0 := by
  refine ⟨fun n s h ↦ ?_, exists_after_heap_eq_zero hp⟩
  obtain ⟨hfollows, hlength⟩ := h.follows hp
  refine ⟨hfollows.degrees, hfollows.count_add_count, fun ht ↦ ?_, h.exists_turn hp, hlength,
    hlength ▸ hfollows.length_le, h.shows hp, fun hheap ↦ ?_⟩
  · obtain ⟨s', he, -, -⟩ := hfollows.turn hp ht
    cases he
  · have hnone := hfollows.heap_eq_zero_iff.1 hheap
    have horder := hfollows.releases.eq_of_not_ready rs.releases_sweep hnone rs.not_ready_sweep
    refine ⟨by rw [Sweep.order, ← horder, List.reverse_reverse], fun id hid ↦ ?_⟩
    rw [← List.mem_reverse]
    exact hfollows.releases.not_mem_iff_of_not_ready hc hnone hid

def tangledMap : ResourceMap :=
  .ofList (ResourceGraph.tangled.map fun r ↦ (r.id, r)) compare

theorem closed_tangledMap : tangledMap.Closed := ResourceGraph.dangling?_eq_none.1 (by decide +kernel)

theorem countdown_exact_tangled :
    ∃ n s, After tangledMap.toList.reverse n s ∧ s.heap = 0 ∧ s.order = ["free"] ∧
      ∀ id ∈ tangledMap, id ∉ s.order ↔
        ∃ c, Relation.ReflTransGen tangledMap.Waits id c ∧
          Relation.TransGen tangledMap.Waits c c := by
  have horder : tangledMap.sweep.order = ["free"] := by
    rw [ResourceMap.sweep_eq_runByList]
    decide +kernel
  obtain ⟨hafter, n, s, hs, hheap⟩ :=
    countdown_exact closed_tangledMap (List.reverse_perm tangledMap.toList)
  obtain ⟨-, -, -, -, -, -, -, hend⟩ := hafter n s hs
  obtain ⟨he, hleft⟩ := hend hheap
  exact ⟨n, s, hs, hheap, he.trans horder, hleft⟩

end Countdown

end Multicloud
