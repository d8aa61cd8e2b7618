import Mathlib.Data.List.Perm.Subperm
import Mathlib.Order.WellFoundedSet
import Multicloud.Graph.Order

namespace Multicloud

namespace ResourceMap

variable (rs : ResourceMap)

def Closed : Prop :=
  ∀ (id : String) (r : Resource), rs[id]? = some r → ∀ dep ∈ r.dependsOn, dep ∈ rs

/-- What may be released next. -/
def Ready (released : List String) (id : String) : Prop :=
  id ∉ released ∧ ∃ r, rs[id]? = some r ∧ ∀ dep ∈ r.dependsOn, dep ∈ released

/-- Releases, latest first, each of the least id that was ready. -/
inductive Releases : List String → Prop
  | nil : Releases []
  | cons {id : String} {released : List String} :
      Releases released → Ready rs released id →
      (∀ x, Ready rs released x → (compare id x).isLE) → Releases (id :: released)

variable {rs}

namespace Releases

theorem nodup {released : List String} (h : rs.Releases released) : released.Nodup := by
  induction h with
  | nil => exact .nil
  | cons _ hready _ ih => exact List.nodup_cons.2 ⟨hready.1, ih⟩

theorem dependencies_mem {released : List String} (h : rs.Releases released) {id : String}
    (hid : id ∈ released) : ∃ r, rs[id]? = some r ∧ ∀ dep ∈ r.dependsOn, dep ∈ released := by
  induction h with
  | nil => simp at hid
  | cons _ hready _ ih =>
    rcases List.mem_cons.1 hid with rfl | hid
    · obtain ⟨r, hr, hdeps⟩ := hready.2
      exact ⟨r, hr, fun dep hdep ↦ .tail _ (hdeps dep hdep)⟩
    · obtain ⟨r, hr, hdeps⟩ := ih hid
      exact ⟨r, hr, fun dep hdep ↦ .tail _ (hdeps dep hdep)⟩

theorem of_append {late early : List String} {id : String}
    (h : rs.Releases (late ++ id :: early)) :
    Ready rs early id ∧ ∀ x, Ready rs early x → (compare id x).isLE := by
  induction late with
  | nil =>
    cases h with
    | cons _ hready hleast => exact ⟨hready, hleast⟩
  | cons _ late ih =>
    cases h with
    | cons h _ _ => exact ih h

theorem subset_keys {released : List String} (h : rs.Releases released) :
    released ⊆ rs.keys := by
  intro id hid
  obtain ⟨r, hr, -⟩ := h.dependencies_mem hid
  exact Std.ExtTreeMap.mem_keys.2 (Std.ExtTreeMap.mem_iff_isSome_getElem?.2 (by simp [hr]))

end Releases

end ResourceMap

namespace Resource

def pending (released : List String) (r : Resource) : Nat :=
  r.dependsOn.toList.countP fun dep ↦ dep ∉ released

theorem nodup_dependsOn (r : Resource) : r.dependsOn.toList.Nodup :=
  r.dependsOn.distinct_toList.imp fun h he ↦ h (by simp [he])

theorem pending_eq_zero {released : List String} {r : Resource} :
    r.pending released = 0 ↔ ∀ dep ∈ r.dependsOn, dep ∈ released := by
  simp [pending, List.countP_eq_zero]

theorem countP_not_mem_cons {id : String} {released deps : List String} (hid : id ∉ released)
    (hd : deps.Nodup) :
    (deps.countP fun dep ↦ dep ∉ id :: released) + (if id ∈ deps then 1 else 0) =
      deps.countP fun dep ↦ dep ∉ released := by
  induction deps with
  | nil => simp
  | cons d deps ih =>
    obtain ⟨hmem, hd⟩ := List.nodup_cons.1 hd
    have ih := ih hd
    rw [List.countP_cons, List.countP_cons, ← ih]
    by_cases he : d = id
    · subst he
      simp [hmem, hid]
    · have hc : (d ∈ id :: released) ↔ d ∈ released := by simp [he]
      simp only [hc, List.mem_cons, Ne.symm he, false_or]
      omega

theorem pending_cons {id : String} {released : List String} (hid : id ∉ released) (r : Resource) :
    r.pending (id :: released) + (if id ∈ r.dependsOn then 1 else 0) = r.pending released := by
  have h := countP_not_mem_cons hid r.nodup_dependsOn
  rwa [if_congr Std.ExtTreeSet.mem_toList rfl rfl] at h

end Resource

namespace ResourceMap

theorem getD_foldl_insert (id x : String) {deps : List String} (hd : deps.Nodup)
    (m : TextMap (List String)) :
    (deps.foldl (fun m dep ↦ m.insert dep (id :: m.getD dep [])) m).getD x [] =
      if x ∈ deps then id :: m.getD x [] else m.getD x [] := by
  induction deps generalizing m with
  | nil => simp
  | cons d deps ih =>
    obtain ⟨hmem, hd⟩ := List.nodup_cons.1 hd
    rw [List.foldl_cons, ih hd, Std.ExtTreeMap.getD_insert]
    by_cases he : d = x
    · subst he
      simp [hmem]
    · simp [he, Ne.symm he]

theorem getD_foldl_users (x : String) (entries : List (String × Resource))
    (m : TextMap (List String)) :
    (entries.foldl (fun m e ↦
      e.2.dependsOn.toList.foldl (fun m dep ↦ m.insert dep (e.1 :: m.getD dep [])) m) m).getD x [] =
      ((entries.filter fun e ↦ x ∈ e.2.dependsOn).map Prod.fst).reverse ++ m.getD x [] := by
  induction entries generalizing m with
  | nil => simp
  | cons e entries ih =>
    rw [List.foldl_cons, ih, getD_foldl_insert _ _ e.2.nodup_dependsOn]
    by_cases hx : x ∈ e.2.dependsOn <;> simp [hx]

theorem getD_users (rs : ResourceMap) (x : String) :
    rs.users.getD x [] = ((rs.toList.filter fun e ↦ x ∈ e.2.dependsOn).map Prod.fst).reverse := by
  simp only [users, Std.ExtTreeMap.foldl_eq_foldl_toList, Std.ExtTreeSet.foldl_eq_foldl_toList]
  rw [getD_foldl_users]
  simp

theorem mem_users {rs : ResourceMap} {id x : String} :
    id ∈ rs.users.getD x [] ↔ ∃ r : Resource, rs[id]? = some r ∧ x ∈ r.dependsOn := by
  simp [getD_users, Std.ExtTreeMap.mem_toList_iff_getElem?_eq_some]

theorem nodup_users (rs : ResourceMap) (x : String) : (rs.users.getD x []).Nodup := by
  rw [getD_users, List.Nodup, List.pairwise_reverse]
  have h : (rs.toList.map Prod.fst).Nodup := by
    rw [Std.ExtTreeMap.map_fst_toList_eq_keys]
    exact rs.nodup_keys
  exact (h.sublist (List.filter_sublist.map _)).imp Ne.symm

variable {rs : ResourceMap}

theorem Releases.not_mem_of_depends {released : List String} (h : rs.Releases released)
    {id x : String} {r : Resource} (hid : id ∉ released) (hr : rs[x]? = some r)
    (hd : id ∈ r.dependsOn) : x ∉ released := by
  intro hx
  obtain ⟨r', hr', hdeps⟩ := h.dependencies_mem hx
  rw [hr, Option.some.injEq] at hr'
  exact hid (hdeps id (hr' ▸ hd))

theorem ready_cons {released : List String} (h : rs.Releases released) {id : String}
    (hid : rs.Ready released id) (x : String) :
    rs.Ready (id :: released) x ↔ (id ≠ x ∧ rs.Ready released x) ∨
      ∃ r : Resource, rs[x]? = some r ∧ id ∈ r.dependsOn ∧ r.pending released ≤ 1 := by
  constructor
  · rintro ⟨hx, r, hr, hdeps⟩
    have hp := Resource.pending_cons hid.1 r
    rw [Resource.pending_eq_zero.2 hdeps] at hp
    by_cases hd : id ∈ r.dependsOn
    · exact .inr ⟨r, hr, hd, by simp [hd] at hp; omega⟩
    · refine .inl ⟨fun he ↦ hx (he ▸ .head _), fun hx' ↦ hx (.tail _ hx'), r, hr, ?_⟩
      intro dep hdep
      exact (List.mem_cons.1 (hdeps dep hdep)).resolve_left fun he ↦ hd (he ▸ hdep)
  · rintro (⟨hne, hx, r, hr, hdeps⟩ | ⟨r, hr, hd, hle⟩)
    · exact ⟨by simp [hx, Ne.symm hne], r, hr, fun dep hdep ↦ .tail _ (hdeps dep hdep)⟩
    · have hx := h.not_mem_of_depends hid.1 hr hd
      have hne : x ≠ id := by
        rintro rfl
        obtain ⟨r', hr', hdeps⟩ := hid.2
        rw [hr, Option.some.injEq] at hr'
        exact hid.1 (hdeps x (hr' ▸ hd))
      have hp := Resource.pending_cons hid.1 r
      rw [if_pos hd] at hp
      exact ⟨by simp [hx, hne], r, hr, Resource.pending_eq_zero.1 (by omega)⟩

end ResourceMap

namespace Sweep

theorem relieve_released (s : Sweep) (a : String) : (s.relieve a).released = s.released := by
  unfold relieve
  split <;> [rfl; (dsimp only; split <;> rfl)]

theorem relieve_waiting (s : Sweep) (a id : String) :
    (s.relieve a).waiting[id]? =
      if id = a then s.waiting[id]?.map (· - 1) else s.waiting[id]? := by
  unfold relieve
  split
  · next h => by_cases he : id = a <;> simp [he, h]
  · next n h =>
    dsimp only
    split <;> by_cases he : id = a <;>
      simp [Std.ExtTreeMap.getElem?_insert, he, h, eq_comm (a := a)]

theorem mem_relieve_ready {s : Sweep} {a id : String} :
    id ∈ (s.relieve a).ready ↔ id ∈ s.ready ∨ id = a ∧ ∃ n, s.waiting[id]? = some n ∧ n ≤ 1 := by
  unfold relieve
  split
  · next h =>
    have : ¬ (id = a ∧ ∃ n, s.waiting[id]? = some n ∧ n ≤ 1) := by
      rintro ⟨rfl, n, hn, -⟩
      simp [h] at hn
    simp [this]
  · next n h =>
    dsimp only
    split
    · next hn =>
      rw [Std.ExtTreeSet.mem_insert, Std.LawfulEqOrd.compare_eq_iff_eq, or_comm]
      refine or_congr_right ⟨?_, fun hid ↦ hid.1.symm⟩
      rintro rfl
      exact ⟨rfl, n, h, by omega⟩
    · next hn =>
      have : ¬ (id = a ∧ ∃ n, s.waiting[id]? = some n ∧ n ≤ 1) := by
        rintro ⟨rfl, m, hm, hle⟩
        rw [h, Option.some.injEq] at hm
        omega
      simp [this]

theorem foldl_relieve {ids : List String} (hd : ids.Nodup) (s : Sweep) :
    (ids.foldl relieve s).released = s.released ∧
    (∀ id, (ids.foldl relieve s).waiting[id]? =
      if id ∈ ids then s.waiting[id]?.map (· - 1) else s.waiting[id]?) ∧
    ∀ id, id ∈ (ids.foldl relieve s).ready ↔
      id ∈ s.ready ∨ id ∈ ids ∧ ∃ n, s.waiting[id]? = some n ∧ n ≤ 1 := by
  induction ids generalizing s with
  | nil => simp
  | cons a ids ih =>
    obtain ⟨hmem, hd⟩ := List.nodup_cons.1 hd
    obtain ⟨hreleased, hwaiting, hready⟩ := ih hd (s.relieve a)
    refine ⟨?_, fun id ↦ ?_, fun id ↦ ?_⟩
    · rw [List.foldl_cons, hreleased, relieve_released]
    · rw [List.foldl_cons, hwaiting, relieve_waiting]
      by_cases he : id = a
      · subst he
        simp [hmem]
      · simp [he]
    · rw [List.foldl_cons, hready, relieve_waiting, mem_relieve_ready]
      by_cases he : id = a
      · subst he
        simp [hmem]
      · simp [he]

/-- What each state of a sweep is, in terms of what it has released. -/
structure Follows (rs : ResourceMap) (s : Sweep) : Prop where
  releases : rs.Releases s.released
  waiting : ∀ id : String, s.waiting[id]? = rs[id]?.map (Resource.pending s.released)
  ready : ∀ id, id ∈ s.ready ↔ rs.Ready s.released id

variable {rs : ResourceMap}

theorem mem_foldl_insert {β : Type} (p : β → Prop) [DecidablePred p] (id : String)
    (entries : List (String × β)) (t : TextSet) :
    id ∈ entries.foldl (fun s e ↦ if p e.2 then s.insert e.1 else s) t ↔
      id ∈ t ∨ ∃ v, (id, v) ∈ entries ∧ p v := by
  induction entries generalizing t with
  | nil => simp
  | cons e entries ih =>
    rw [List.foldl_cons, ih]
    split
    · next h =>
      rw [Std.ExtTreeSet.mem_insert, Std.LawfulEqOrd.compare_eq_iff_eq]
      constructor
      · rintro ((rfl | hid) | ⟨v, hv, he⟩)
        · exact .inr ⟨e.2, .head _, h⟩
        · exact .inl hid
        · exact .inr ⟨v, .tail _ hv, he⟩
      · rintro (hid | ⟨v, hv, he⟩)
        · exact .inl (.inr hid)
        · rcases List.mem_cons.1 hv with rfl | hv
          · exact .inl (.inl rfl)
          · exact .inr ⟨v, hv, he⟩
    · next h =>
      refine or_congr_right ⟨fun ⟨v, hv, he⟩ ↦ ⟨v, .tail _ hv, he⟩, fun ⟨v, hv, he⟩ ↦ ?_⟩
      rcases List.mem_cons.1 hv with rfl | hv
      · exact absurd he h
      · exact ⟨v, hv, he⟩

theorem follows_start (rs : ResourceMap) : Follows rs (start rs) where
  releases := .nil
  waiting id := by
    have h (r : Resource) : r.pending [] = r.dependsOn.size := by
      simp [Resource.pending, List.countP_eq_length_filter, Std.ExtTreeSet.length_toList]
    simp only [start, Std.ExtTreeMap.getElem?_map]
    congr 1
    funext r
    exact (h r).symm
  ready id := by
    rw [start, Std.ExtTreeMap.foldl_eq_foldl_toList,
      mem_foldl_insert fun r : Resource ↦ r.dependsOn.isEmpty = true]
    simp [ResourceMap.Ready, Std.ExtTreeMap.mem_toList_iff_getElem?_eq_some,
      Std.ExtTreeSet.isEmpty_iff, Std.ExtTreeSet.eq_empty_iff_forall_not_mem]

theorem step?_eq_none {s : Sweep} {users : TextMap (List String)} :
    s.step? users = none ↔ ∀ id, id ∉ s.ready := by
  simp [step?, Std.ExtTreeSet.min?_eq_none_iff, Std.ExtTreeSet.eq_empty_iff_forall_not_mem]

theorem released_of_step? {s s' : Sweep} (h : s.step? rs.users = some s') :
    ∃ id, s.ready.min? = some id ∧ s'.released = id :: s.released := by
  obtain ⟨id, hid, rfl⟩ := Option.map_eq_some_iff.1 h
  exact ⟨id, hid, (foldl_relieve (rs.nodup_users id) _).1⟩

/-- Releasing the least ready id makes those ready that waited for it alone. -/
theorem Follows.step {s s' : Sweep} (hs : Follows rs s) (h : s.step? rs.users = some s') :
    Follows rs s' := by
  obtain ⟨id, hmin, rfl⟩ := Option.map_eq_some_iff.1 h
  obtain ⟨hmem, hleast⟩ := Std.ExtTreeSet.min?_eq_some_iff_mem_and_forall.1 hmin
  have hid := (hs.ready id).1 hmem
  obtain ⟨hreleased, hwaiting, hready⟩ := foldl_relieve (rs.nodup_users id)
    { s with released := id :: s.released, ready := s.ready.erase id }
  refine ⟨?_, fun x ↦ ?_, fun x ↦ ?_⟩
  · rw [hreleased]
    exact .cons hs.releases hid fun x hx ↦ hleast x ((hs.ready x).2 hx)
  · rw [hwaiting, hreleased, hs.waiting]
    cases hr : rs[x]? with
    | none => simp
    | some r =>
      have hp := Resource.pending_cons hid.1 r
      have hu : x ∈ rs.users.getD id [] ↔ id ∈ r.dependsOn := by
        simp [ResourceMap.mem_users, hr]
      by_cases hd : id ∈ r.dependsOn <;> simp [hu, hd] at hp ⊢ <;> omega
  · rw [hready, hreleased]
    rw [ResourceMap.ready_cons hs.releases hid]
    simp only [Std.ExtTreeSet.mem_erase, hs.ready, hs.waiting, ResourceMap.mem_users, ne_eq,
      Std.LawfulEqOrd.compare_eq_iff_eq]
    refine or_congr_right ⟨?_, ?_⟩
    · rintro ⟨⟨r, hr, hd⟩, n, hn, hle⟩
      rw [hr, Option.map_some, Option.some.injEq] at hn
      exact ⟨r, hr, hd, hn ▸ hle⟩
    · rintro ⟨r, hr, hd, hle⟩
      exact ⟨⟨r, hr, hd⟩, _, by rw [hr, Option.map_some], hle⟩

/-- The same releases, with the least ready id found by listing all of them: unlike `run` it can be
evaluated by the kernel. -/
def runByList (users : TextMap (List String)) : Nat → Sweep → Sweep
  | 0, s => s
  | n + 1, s =>
    match s.ready.toList with
    | [] => s
    | id :: _ =>
      runByList users n ((users.getD id []).foldl relieve
        { s with released := id :: s.released, ready := s.ready.erase id })

theorem run_eq_runByList (users : TextMap (List String)) (n : Nat) (s : Sweep) :
    s.run users n = s.runByList users n := by
  induction n generalizing s with
  | zero => rfl
  | succ n ih =>
    rw [run, runByList, step?, Std.ExtTreeSet.min?_eq_head?_toList]
    cases s.ready.toList with
    | nil => rfl
    | cons id rest => exact ih _

theorem Follows.run {s : Sweep} (hs : Follows rs s) (n : Nat) : Follows rs (s.run rs.users n) := by
  induction n generalizing s with
  | zero => exact hs
  | succ n ih =>
    unfold Sweep.run
    split
    · exact hs
    · next s' h => exact ih (hs.step h)

theorem length_run_le (n : Nat) (s : Sweep) :
    (s.run rs.users n).released.length ≤ s.released.length + n := by
  induction n generalizing s with
  | zero => exact Nat.le_refl _
  | succ n ih =>
    unfold Sweep.run
    split
    · exact Nat.le_add_right _ _
    · next s' h =>
      obtain ⟨id, -, hreleased⟩ := released_of_step? h
      refine Nat.le_trans (ih s') ?_
      rw [hreleased, List.length_cons]
      omega

theorem run_exhausted (n : Nat) (s : Sweep) :
    (∀ id, id ∉ (s.run rs.users n).ready) ∨
      (s.run rs.users n).released.length = s.released.length + n := by
  induction n generalizing s with
  | zero => exact .inr rfl
  | succ n ih =>
    unfold Sweep.run
    split
    · next h => exact .inl (step?_eq_none.1 h)
    · next s' h =>
      obtain ⟨id, -, hreleased⟩ := released_of_step? h
      refine (ih s').imp_right fun hlen ↦ ?_
      rw [hlen, hreleased, List.length_cons]
      omega

end Sweep

namespace ResourceMap

variable {rs : ResourceMap}

theorem sweep_eq_runByList (rs : ResourceMap) :
    rs.sweep = (Sweep.start rs).runByList rs.users rs.size :=
  Sweep.run_eq_runByList _ _ _

theorem follows_sweep (rs : ResourceMap) : Sweep.Follows rs rs.sweep :=
  (Sweep.follows_start rs).run rs.size

theorem releases_sweep (rs : ResourceMap) : rs.Releases rs.sweep.released :=
  rs.follows_sweep.releases

theorem Releases.length_le {released : List String} (h : rs.Releases released) :
    released.length ≤ rs.size := by
  rw [← Std.ExtTreeMap.length_keys]
  exact (h.nodup.subperm h.subset_keys).length_le

theorem Releases.perm_keys {released : List String} (h : rs.Releases released)
    (hlen : released.length = rs.size) : released.Perm rs.keys := by
  refine (h.nodup.subperm h.subset_keys).perm_of_length_le ?_
  exact Nat.le_of_eq (Std.ExtTreeMap.length_keys.trans hlen.symm)

theorem not_ready_sweep (rs : ResourceMap) (id : String) : ¬ rs.Ready rs.sweep.released id := by
  intro hid
  rcases Sweep.run_exhausted rs.size (Sweep.start rs) with h | h
  · exact h id ((rs.follows_sweep.ready id).2 hid)
  · have hperm := rs.releases_sweep.perm_keys (h.trans (Nat.zero_add _))
    obtain ⟨hnot, r, hr, -⟩ := hid
    refine hnot (hperm.mem_iff.2 (Std.ExtTreeMap.mem_keys.2 ?_))
    exact Std.ExtTreeMap.mem_iff_isSome_getElem?.2 (by simp [hr])

def Waits (rs : ResourceMap) (id dep : String) : Prop :=
  ∃ r : Resource, rs[id]? = some r ∧ dep ∈ r.dependsOn

def Acyclic (rs : ResourceMap) : Prop := ∀ id, ¬ Relation.TransGen rs.Waits id id

theorem Releases.waits_mem {released : List String} (h : rs.Releases released) {id dep : String}
    (hid : id ∈ released) (hw : Relation.TransGen rs.Waits id dep) : dep ∈ released := by
  induction hw using Relation.TransGen.head_induction_on with
  | single hw =>
    obtain ⟨r, hr, hd⟩ := hw
    obtain ⟨r', hr', hdeps⟩ := h.dependencies_mem hid
    rw [hr, Option.some.injEq] at hr'
    exact hdeps _ (hr' ▸ hd)
  | head hw _ ih =>
    obtain ⟨r, hr, hd⟩ := hw
    obtain ⟨r', hr', hdeps⟩ := h.dependencies_mem hid
    rw [hr, Option.some.injEq] at hr'
    exact ih (hdeps _ (hr' ▸ hd))

theorem Releases.not_waits_self {released : List String} (h : rs.Releases released) {id : String}
    (hid : id ∈ released) : ¬ Relation.TransGen rs.Waits id id := by
  induction h with
  | nil => simp at hid
  | @cons x released hrel hready _ ih =>
    intro hw
    by_cases hmem : id ∈ released
    · exact ih hmem hw
    · obtain rfl := (List.mem_cons.1 hid).resolve_right hmem
      -- All that the last release waits for is released before it.
      obtain ⟨dep, hstep, hrest⟩ := Relation.TransGen.head'_iff.1 hw
      obtain ⟨r, hr, hd⟩ := hstep
      obtain ⟨r', hr', hdeps⟩ := hready.2
      rw [hr, Option.some.injEq] at hr'
      have hdep := hdeps dep (hr' ▸ hd)
      rcases Relation.reflTransGen_iff_eq_or_transGen.1 hrest with rfl | hrest
      · exact hmem hdep
      · exact hmem (hrel.waits_mem hdep hrest)

theorem mem_iff_exists {id : String} : id ∈ rs ↔ ∃ r : Resource, rs[id]? = some r := by
  rw [Std.ExtTreeMap.mem_iff_isSome_getElem?, Option.isSome_iff_exists]

/-- As long as something is left from which no cycle is reached, something is ready. -/
theorem exists_ready_of_left {released : List String} (hc : rs.Closed) {id : String}
    (ha : ∀ c, Relation.ReflTransGen rs.Waits id c → ¬ Relation.TransGen rs.Waits c c)
    (hid : id ∈ rs) (hnot : id ∉ released) : ∃ x, rs.Ready released x := by
  let left : Set String := {x | Relation.ReflTransGen rs.Waits id x ∧ x ∈ rs ∧ x ∉ released}
  have hfinite : left.Finite :=
    (List.finite_toSet rs.keys).subset fun x hx ↦ Std.ExtTreeMap.mem_keys.2 hx.2.1
  have : Finite left := hfinite
  let before (a b : left) : Prop := Relation.TransGen rs.Waits b a
  have : IsTrans left before := ⟨fun a b c hab hbc ↦ hbc.trans hab⟩
  have : Std.Irrefl before := ⟨fun a h ↦ ha a a.2.1 h⟩
  obtain ⟨x, -, hmin⟩ := (Finite.wellFounded_of_trans_of_irrefl before).has_min Set.univ
    ⟨⟨id, .refl, hid, hnot⟩, trivial⟩
  obtain ⟨r, hr⟩ := mem_iff_exists.1 x.2.2.1
  refine ⟨x, x.2.2.2, r, hr, fun dep hdep ↦ ?_⟩
  by_contra hleft
  have hwaits : rs.Waits x dep := ⟨r, hr, hdep⟩
  exact hmin ⟨dep, x.2.1.tail hwaits, hc x r hr dep hdep, hleft⟩ trivial (.single hwaits)

/-- The count of releases tells whether there is a cycle. -/
theorem length_order_sweep_iff (hc : rs.Closed) :
    rs.sweep.order.length = rs.size ↔ rs.Acyclic := by
  rw [Sweep.order, List.length_reverse]
  constructor
  · intro hlen id hw
    obtain ⟨dep, ⟨r, hr, -⟩, -⟩ := Relation.TransGen.head'_iff.1 hw
    have hmem : id ∈ rs.sweep.released :=
      (rs.releases_sweep.perm_keys hlen).mem_iff.2
        (Std.ExtTreeMap.mem_keys.2 (mem_iff_exists.2 ⟨r, hr⟩))
    exact rs.releases_sweep.not_waits_self hmem hw
  · intro ha
    refine Nat.le_antisymm rs.releases_sweep.length_le ?_
    rw [← Std.ExtTreeMap.length_keys]
    refine (rs.nodup_keys.subperm fun id hid ↦ ?_).length_le
    by_contra hnot
    obtain ⟨x, hx⟩ := exists_ready_of_left hc (fun c _ ↦ ha c) (Std.ExtTreeMap.mem_keys.1 hid) hnot
    exact rs.not_ready_sweep x hx

end ResourceMap

end Multicloud
