import Mathlib.Data.List.Nodup
import Multicloud.Proofs.Graph.Encoding
import Multicloud.Proofs.Run.Binding
import Multicloud.Run.Synthesis

namespace Multicloud

theorem Outcome.isComplete_iff {o : Outcome} :
    o.isComplete = true ↔ o.failures = ∅ ∧ o.cancelled = [] := by
  rw [Outcome.isComplete, Bool.and_eq_true, Std.ExtTreeMap.isEmpty_iff, List.isEmpty_iff]

namespace Pipeline

variable {p p' : Pipeline} {g g' : ResourceGraph} {targets targets' : List Provider}
  {plan plan' : Plan}

structure Planned (p : Pipeline) (g : ResourceGraph) (targets : List Provider) (plan : Plan) :
    Prop where
  graphHash : plan.graphHash = g.hash p.digest
  requested : plan.requested = (Std.ExtTreeSet.ofList targets compare).toList
  requested_ne : plan.requested ≠ []
  binding : plan.binding = .of (plan.requested.filterMap p.bound?)
  unbound : plan.unbound = .ofList (plan.requested.filterMap p.unbound?) compare

theorem plan_eq_ok (h : p.plan g targets = .ok plan) : Planned p g targets plan := by
  unfold Pipeline.plan at h
  dsimp only at h
  split at h
  · cases h
  · next hne =>
    cases h
    exact ⟨rfl, rfl, by simpa using hne, rfl, rfl⟩

theorem Planned.plan_eq (h : Planned p g targets plan) : p.plan g targets = .ok plan := by
  obtain ⟨hg, hr, hne, hb, hu⟩ := h
  unfold Pipeline.plan
  rw [hr] at hne hb hu
  rw [if_neg (by simpa using hne)]
  cases plan
  cases hg
  cases hr
  cases hb
  cases hu
  rfl

theorem Planned.isDigest_graphHash (h : Planned p g targets plan)
    (hp : p.digest = Digest.blake3) : Digest.IsDigest plan.graphHash :=
  ⟨g.stream, by rw [h.graphHash, ResourceGraph.hash_eq, hp]⟩

theorem isDigest_key_of_digest (hp : p.digest = Digest.blake3) (b : Binding) (graphHash : String) :
    Digest.IsDigest (b.key p.digest graphHash) := ⟨b.stream graphHash, by rw [b.key_eq, hp]⟩

theorem ofList_congr (h : ∀ t, t ∈ targets ↔ t ∈ targets') :
    Std.ExtTreeSet.ofList targets compare = Std.ExtTreeSet.ofList targets' compare :=
  Std.ExtTreeSet.ext_mem fun t ↦ by simp [h t]

/-- It does not matter in which order targets are given, and how often. -/
theorem plan_congr (p : Pipeline) (g : ResourceGraph) (h : ∀ t, t ∈ targets ↔ t ∈ targets') :
    p.plan g targets = p.plan g targets' := by
  rw [Pipeline.plan, ofList_congr h, ← Pipeline.plan]

theorem getElem?_insertMany_iff {β : Type} {m : Std.ExtTreeMap Provider β}
    {entries : List (Provider × β)} (hd : (entries.map Prod.fst).Nodup) {t : Provider} {b : β} :
    (m.insertMany entries)[t]? = some b ↔
      (t, b) ∈ entries ∨ t ∉ entries.map Prod.fst ∧ m[t]? = some b := by
  have hdistinct : entries.Pairwise fun e e' ↦ ¬ compare e.1 e'.1 = .eq :=
    (List.pairwise_map.1 hd).imp fun hne he ↦ hne (Std.LawfulEqOrd.eq_of_compare he)
  have hmem {b : β} (h : (t, b) ∈ entries) : (m.insertMany entries)[t]? = some b :=
    Std.ExtTreeMap.getElem?_insertMany_list_of_mem Std.ReflCmp.compare_self hdistinct h
  by_cases hkey : t ∈ entries.map Prod.fst
  · refine ⟨fun h ↦ .inl ?_, fun h ↦ hmem (h.resolve_right fun h ↦ h.1 hkey)⟩
    obtain ⟨⟨t', b'⟩, hentry, rfl⟩ := List.mem_map.1 hkey
    rw [hmem hentry] at h
    exact Option.some.inj h ▸ hentry
  · have hold : (m.insertMany entries)[t]? = m[t]? :=
      Std.ExtTreeMap.getElem?_insertMany_list_of_contains_eq_false
        (by simpa only [List.contains_eq_mem, decide_eq_false_iff_not] using hkey)
    rw [hold]
    exact ⟨fun h ↦ .inr ⟨hkey, h⟩, fun h ↦ h.elim (fun h ↦ (hkey (List.mem_map_of_mem h)).elim)
      And.right⟩

theorem getElem?_ofList_iff {β : Type} {entries : List (Provider × β)}
    (hd : (entries.map Prod.fst).Nodup) {t : Provider} {b : β} :
    (Std.ExtTreeMap.ofList entries compare)[t]? = some b ↔ (t, b) ∈ entries := by
  rw [Std.ExtTreeMap.ofList_eq_insertMany_empty, getElem?_insertMany_iff hd]
  simp

theorem nodup_fst_filterMap {α β κ : Type} {f : α → Option (κ × β)} {k : α → κ}
    (hf : ∀ a e, f a = some e → e.1 = k a) {as : List α} (hd : (as.map k).Nodup) :
    ((as.filterMap f).map Prod.fst).Nodup := by
  suffices h : ((as.filterMap f).map Prod.fst).Sublist (as.map k) from hd.sublist h
  clear hd
  induction as with
  | nil => exact .slnil
  | cons a as ih =>
    cases he : f a with
    | none => simpa [he] using ih.cons (k a)
    | some e => simpa [he, hf a e he] using ih

theorem bound?_eq_some {t : Provider} {e : Provider × Version} :
    p.bound? t = some e ↔ e.1 = t ∧ p.bind t = .ok e.2 := by
  unfold bound?
  obtain ⟨t', v⟩ := e
  cases p.bind t <;> simp [eq_comm]

theorem unbound?_eq_some {t : Provider} {e : Provider × TargetFailure} :
    p.unbound? t = some e ↔
      e.1 = t ∧ ∃ error, p.bind t = .error error ∧ e.2 = Walk.failure t none error := by
  unfold unbound?
  obtain ⟨t', f⟩ := e
  cases p.bind t <;> simp [eq_comm]

theorem unbound?_eq_none {t : Provider} : p.unbound? t = none ↔ ∃ v, p.bind t = .ok v := by
  unfold unbound?
  cases p.bind t <;> simp

theorem Planned.mem_requested (h : Planned p g targets plan) {t : Provider} :
    t ∈ plan.requested ↔ t ∈ targets := by
  rw [h.requested, Std.ExtTreeSet.mem_toList, Std.ExtTreeSet.mem_ofList, List.contains_iff_mem]

theorem Planned.nodup_requested (h : Planned p g targets plan) : plan.requested.Nodup := by
  rw [h.requested]
  exact Std.ExtTreeSet.distinct_toList.imp fun hne he ↦ hne (by simp [he])

theorem Planned.getElem?_binding (h : Planned p g targets plan) {t : Provider} {v : Version} :
    plan.binding[t]? = some v ↔ t ∈ targets ∧ p.bind t = .ok v := by
  have hd := nodup_fst_filterMap (f := p.bound?) (k := id) (fun t e he ↦ (bound?_eq_some.1 he).1)
    (by simpa using h.nodup_requested)
  rw [h.binding, Binding.of, getElem?_ofList_iff hd, List.mem_filterMap, ← h.mem_requested]
  constructor
  · rintro ⟨t', ht, hb⟩
    obtain ⟨rfl, hb⟩ := bound?_eq_some.1 hb
    exact ⟨ht, hb⟩
  · rintro ⟨ht, hb⟩
    exact ⟨t, ht, bound?_eq_some.2 ⟨rfl, hb⟩⟩

theorem Planned.getElem?_unbound (h : Planned p g targets plan) {t : Provider}
    {f : TargetFailure} : plan.unbound[t]? = some f ↔
      t ∈ targets ∧ ∃ e, p.bind t = .error e ∧ f = Walk.failure t none e := by
  have hd := nodup_fst_filterMap (f := p.unbound?) (k := id)
    (fun t e he ↦ (unbound?_eq_some.1 he).1) (by simpa using h.nodup_requested)
  rw [h.unbound, getElem?_ofList_iff hd, List.mem_filterMap, ← h.mem_requested]
  constructor
  · rintro ⟨t', ht, hb⟩
    obtain ⟨rfl, hb⟩ := unbound?_eq_some.1 hb
    exact ⟨ht, hb⟩
  · rintro ⟨ht, hb⟩
    exact ⟨t, ht, unbound?_eq_some.2 ⟨rfl, hb⟩⟩

theorem Planned.unbound_eq_empty_iff (h : Planned p g targets plan) :
    plan.unbound = ∅ ↔ ∀ t ∈ targets, ∃ v, p.bind t = .ok v := by
  rw [h.unbound, Std.ExtTreeMap.ofList_eq_empty_iff, List.filterMap_eq_nil_iff]
  simp only [h.mem_requested, unbound?_eq_none]

theorem Planned.mem_binding (h : Planned p g targets plan) (hu : plan.unbound = ∅) (t : Provider) :
    t ∈ plan.binding ↔ t ∈ plan.requested := by
  rw [Std.ExtTreeMap.mem_iff_isSome_getElem?, Option.isSome_iff_exists, h.mem_requested]
  simp only [h.getElem?_binding, exists_and_left]
  exact and_iff_left_of_imp (h.unbound_eq_empty_iff.1 hu t)

theorem Planned.keys_binding (h : Planned p g targets plan) (hu : plan.unbound = ∅) :
    plan.binding.keys = plan.requested := by
  refine List.Perm.eq_of_pairwise (fun a b _ _ hab hba ↦ ?_) Std.ExtTreeMap.ordered_keys
    (h.requested ▸ Std.ExtTreeSet.ordered_toList) ?_
  · have hswap : compare a b = (compare b a).swap := Std.OrientedCmp.eq_swap
    rw [hba, hab] at hswap
    cases hswap
  · rw [List.perm_ext_iff_of_nodup Std.ExtTreeMap.nodup_keys h.nodup_requested]
    intro t
    rw [Std.ExtTreeMap.mem_keys, h.mem_binding hu]

theorem Planned.toList_binding_ne (h : Planned p g targets plan) (hu : plan.unbound = ∅) :
    plan.binding.toList ≠ [] := by
  obtain ⟨t, rest, ht⟩ := List.exists_cons_of_ne_nil h.requested_ne
  have hmem := (h.mem_binding hu t).2 (ht ▸ .head _)
  intro hnil
  rw [Std.ExtTreeMap.toList_eq_nil_iff] at hnil
  simp [hnil] at hmem

theorem Planned.ext (h : Planned p g targets plan) (h' : Planned p' g' targets' plan')
    (hu : plan.unbound = ∅) (hu' : plan'.unbound = ∅) (hg : plan.graphHash = plan'.graphHash)
    (hb : plan.binding = plan'.binding) : plan = plan' := by
  have hr : plan.requested = plan'.requested := by
    rw [h.requested, h'.requested]
    congr 1
    refine Std.ExtTreeSet.ext_mem fun t ↦ ?_
    rw [← Std.ExtTreeSet.mem_toList, ← Std.ExtTreeSet.mem_toList, ← h.requested, ← h'.requested,
      ← h.mem_binding hu, ← h'.mem_binding hu', hb]
  cases plan
  cases plan'
  cases hr
  cases hu
  cases hu'
  cases hg
  cases hb
  rfl

section Work

variable {walk : Provider × Version → TargetRun} {bound : Bound} {runs : TargetRuns}

/-- Each target was walked, or not begun. -/
def Worked (walk : Provider × Version → TargetRun) (bound : Bound) (runs : TargetRuns) : Prop :=
  List.Forall₂ (fun t run ↦ run.1 = t.1 ∧ (run.2 = walk t ∨ run.2 = .cancelled)) bound runs

theorem worked_inTurn (walk : Provider × Version → TargetRun) (cancelAfter : Option Nat)
    (bound : Bound) : Worked walk bound (inTurn walk cancelAfter bound) := by
  induction bound generalizing cancelAfter with
  | nil => cases cancelAfter <;> exact .nil
  | cons t rest ih =>
    match cancelAfter with
    | none => exact .cons ⟨rfl, .inl rfl⟩ (ih none)
    | some 0 => exact .cons ⟨rfl, .inr rfl⟩ (ih (some 0))
    | some (k + 1) => exact .cons ⟨rfl, .inl rfl⟩ (ih (some k))

theorem inTurn_none (walk : Provider × Version → TargetRun) (bound : Bound) :
    inTurn walk none bound = bound.map fun t ↦ (t.1, walk t) := by
  induction bound with
  | nil => rfl
  | cons t rest ih => rw [inTurn, ih, List.map_cons]

def Stands (walk : Provider × Version → TargetRun) (bound : Bound)
    (m : Std.ExtTreeMap Provider TargetRun) : Prop :=
  ∀ (target : Provider) (r : TargetRun), m[target]? = some r →
    r = .cancelled ∨ ∃ t ∈ bound, t.1 = target ∧ r = walk t

theorem Stands.insert {m : Std.ExtTreeMap Provider TargetRun} (h : Stands walk bound m)
    {target : Provider} {r : TargetRun}
    (hr : r = .cancelled ∨ ∃ t ∈ bound, t.1 = target ∧ r = walk t) :
    Stands walk bound (m.insert target r) := by
  intro target' r' h'
  rw [Std.ExtTreeMap.getElem?_insert] at h'
  split at h'
  · next he =>
    cases h'
    rwa [← Std.LawfulEqOrd.eq_of_compare he]
  · exact h target' r' h'

theorem stands_handle {f : Floor} (hb : Stands walk bound f.begun)
    (hf : Stands walk bound f.finished) (e : Event) :
    Stands walk bound (handle walk bound f e).begun ∧
      Stands walk bound (handle walk bound f e).finished := by
  cases e with
  | cancel => exact ⟨hb, hf⟩
  | start target =>
    simp only [handle]
    split
    · exact ⟨hb, hf⟩
    · next t ht =>
      refine ⟨hb.insert ?_, hf⟩
      have hmem := List.mem_of_find?_eq_some ht
      have htarget := List.find?_some ht
      split
      · exact .inl rfl
      · exact .inr ⟨t, hmem, by simpa using htarget, rfl⟩
  | finish target =>
    simp only [handle]
    split
    · exact ⟨hb, hf⟩
    · next r hr => exact ⟨hb, hf.insert (hb target r hr)⟩

theorem stands_foldl (events : List Event) {f : Floor} (hb : Stands walk bound f.begun)
    (hf : Stands walk bound f.finished) :
    Stands walk bound (events.foldl (handle walk bound) f).finished := by
  induction events generalizing f with
  | nil => exact hf
  | cons e events ih =>
    obtain ⟨hb, hf⟩ := stands_handle hb hf e
    exact ih hb hf

theorem worked_sideBySide (events : List Event) (hd : (bound.map Prod.fst).Nodup) :
    Worked walk bound (sideBySide walk events bound) := by
  have hs : Stands walk bound (events.foldl (handle walk bound) {}).finished :=
    stands_foldl events (fun _ _ h ↦ by simp at h) (fun _ _ h ↦ by simp at h)
  refine List.forall₂_map_right_iff.2 (List.forall₂_same.2 fun t ht ↦ ⟨rfl, ?_⟩)
  dsimp only
  rw [Std.ExtTreeMap.getD_eq_getD_getElem?]
  cases hr : (events.foldl (handle walk bound) {}).finished[t.1]? with
  | none => exact .inr rfl
  | some r =>
    rcases hs t.1 r hr with rfl | ⟨t', ht', he, rfl⟩
    · exact .inr rfl
    · rw [List.inj_on_of_nodup_map hd ht' ht he]
      exact .inl rfl

theorem nodup_toList (b : Binding) : (b.toList.map Prod.fst).Nodup := by
  rw [Std.ExtTreeMap.map_fst_toList_eq_keys]
  exact b.nodup_keys

theorem Worked.eq_inTurn (h : Worked walk bound runs) (hc : ∀ run ∈ runs, run.2 ≠ .cancelled) :
    runs = inTurn walk none bound := by
  rw [inTurn_none]
  induction h with
  | nil => rfl
  | @cons t run bound runs hrun _ ih =>
    rw [List.map_cons, ← ih fun run hmem ↦ hc run (.tail _ hmem)]
    rw [← hrun.1, ← hrun.2.resolve_right (hc run (.head _))]

end Work

@[simp] theorem graphHash_assemble (g : ResourceGraph) (plan : Plan) (runs : TargetRuns) :
    (assemble g plan runs).graphHash = plan.graphHash := rfl

@[simp] theorem binding_assemble (g : ResourceGraph) (plan : Plan) (runs : TargetRuns) :
    (assemble g plan runs).binding = plan.binding := rfl

theorem of_isComplete_assemble {runs : TargetRuns}
    (h : (assemble g plan runs).isComplete = true) :
    plan.unbound = ∅ ∧ ∀ run ∈ runs, ∃ artifacts, run.2 = .done artifacts := by
  simp only [Outcome.isComplete, assemble, Bool.and_eq_true, Std.ExtTreeMap.isEmpty_iff,
    Std.ExtTreeMap.insertMany_list_eq_empty_iff, List.filterMap_eq_nil_iff, List.isEmpty_iff,
    List.map_eq_nil_iff, List.filter_eq_nil_iff] at h
  obtain ⟨⟨hu, hf⟩, hc⟩ := h
  refine ⟨hu, fun run hmem ↦ ?_⟩
  have hf := hf run hmem
  have hc := hc run hmem
  cases hr : run.2 with
  | done artifacts => exact ⟨artifacts, rfl⟩
  | failed f => simp [hr, TargetRun.failure?] at hf
  | cancelled => simp [hr] at hc

theorem Worked.complete {runs : TargetRuns}
    (hw : Worked (p.walk g) plan.binding.toList runs)
    (h : (assemble g plan runs).isComplete = true) :
    plan.unbound = ∅ ∧ runs = inTurn (p.walk g) none plan.binding.toList ∧
      ∀ t ∈ plan.binding.toList, ∃ artifacts,
        walkTarget g p.registry t.1 t.2 = .ok artifacts := by
  obtain ⟨hu, hdone⟩ := of_isComplete_assemble h
  have hruns := hw.eq_inTurn fun run hmem hc ↦ by
    obtain ⟨artifacts, hd⟩ := hdone run hmem
    rw [hd] at hc
    cases hc
  refine ⟨hu, hruns, fun t ht ↦ ?_⟩
  rw [hruns, inTurn_none] at hdone
  obtain ⟨artifacts, hd⟩ := hdone _ (List.mem_map_of_mem ht)
  refine ⟨artifacts, ?_⟩
  dsimp only [Pipeline.walk] at hd
  cases hwalk : walkTarget g p.registry t.1 t.2 with
  | ok as =>
    rw [hwalk] at hd
    cases hd
    rfl
  | error f =>
    rw [hwalk] at hd
    cases hd

theorem Worked.mem_artifacts {runs : TargetRuns}
    (hw : Worked (p.walk g) plan.binding.toList runs)
    (h : (assemble g plan runs).isComplete = true) {t : Provider} :
    t ∈ (assemble g plan runs).artifacts ↔ t ∈ plan.binding := by
  have hbinding : t ∈ plan.binding ↔ ∃ b ∈ plan.binding.toList, b.1 = t := by
    rw [← Std.ExtTreeMap.mem_keys, ← Std.ExtTreeMap.map_fst_toList_eq_keys, List.mem_map]
  rw [hbinding]
  simp only [assemble, Std.ExtTreeMap.mem_ofList, List.contains_iff_mem, List.mem_map,
    List.mem_filterMap]
  constructor
  · rintro ⟨e, ⟨run, hrun, he⟩, rfl⟩
    obtain ⟨b, hb, hname, -⟩ := exists_of_forall₂_right hw hrun
    obtain ⟨as, -, rfl⟩ := Option.map_eq_some_iff.1 he
    exact ⟨b, hb, hname.symm⟩
  · rintro ⟨b, hb, rfl⟩
    obtain ⟨run, hrun, hname, -⟩ := exists_of_forall₂_left hw hb
    obtain ⟨as, hdone⟩ := (of_isComplete_assemble h).2 run hrun
    exact ⟨(run.1, as), ⟨run, hrun, by simp [hdone, TargetRun.artifacts?]⟩, hname⟩

end Pipeline

end Multicloud
