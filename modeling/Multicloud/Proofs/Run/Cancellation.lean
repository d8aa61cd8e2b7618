import Multicloud.Proofs.Run.Schedule

namespace Multicloud.Pipeline

variable {p : Pipeline} {c : RunCache} {g : ResourceGraph} {targets : List Provider} {plan : Plan}
  {bound : Bound} {events : List Event} {o : Outcome}

theorem cancelled_assemble_inTurn (k : Nat) (bound : Bound) :
    (assemble g plan (inTurn (p.walk g) (some k) bound)).cancelled =
      (bound.map Prod.fst).drop k := by
  dsimp only [assemble]
  induction bound generalizing k with
  | nil => cases k <;> rfl
  | cons b bound ih =>
    cases k with
    | zero => simpa [inTurn] using ih 0
    | succ k => simpa [inTurn, walk_ne_cancelled] using ih k

theorem cancelled_assemble_sideBySide (hd : (bound.map Prod.fst).Nodup)
    (h : ∀ b ∈ bound, Event.Runs events b.1) :
    (assemble g plan (sideBySide (p.walk g) events bound)).cancelled =
      (bound.map Prod.fst).filter fun t ↦ ¬ Event.BeginsInTime events t := by
  rw [sideBySide_eq hd h]
  dsimp only [assemble]
  rw [List.filter_map, List.map_map, List.filter_map]
  refine congrArg (List.map Prod.fst) (List.filter_congr fun b _ ↦ ?_)
  by_cases ht : Event.BeginsInTime events b.1 <;> simp [ht, walk_ne_cancelled]

theorem sideBySide_eq_inTurn {walk : Provider × Version → TargetRun}
    (hd : (bound.map Prod.fst).Nodup) (h : ∀ b ∈ bound, Event.Runs events b.1)
    (hc : .cancel ∉ events) : sideBySide walk events bound = inTurn walk none bound := by
  rw [sideBySide_eq hd h, inTurn_none]
  refine List.map_congr_left fun b hb ↦ ?_
  obtain ⟨before, between, after, rfl, hbefore, -⟩ := (h b hb).exists_split
  rw [if_pos]
  rw [Event.beginsInTime_iff hbefore]
  exact fun hmem ↦ hc (List.mem_append_left _ hmem)

theorem run_congr_work {work work' : Bound → TargetRuns}
    (h : ∀ plan, Planned p g targets plan → work plan.binding.toList = work' plan.binding.toList)
    (c : RunCache) (previous : Option LockEntry) :
    p.run c g targets previous work = p.run c g targets previous work' := by
  unfold Pipeline.run
  cases hplan : p.plan g targets with
  | error e => rfl
  | ok plan =>
    dsimp only
    rw [h plan (plan_eq_ok hplan)]

theorem run_keep_of_cancelled (h : o.cancelled ≠ []) (root : Tree) :
    (p.keep c o).run root = (c, root) := by
  rw [keep, if_neg]
  · rfl
  · exact fun hc ↦ h (Outcome.isComplete_iff.1 hc).2

/-- What a run shares with the whole run, in which nothing is cancelled. -/
structure Spares (o whole : Outcome) : Prop where
  mode : o.mode = whole.mode
  graphHash : o.graphHash = whole.graphHash
  binding : o.binding = whole.binding
  bound : ∀ t ∈ o.cancelled, t ∈ o.binding
  artifacts : ∀ t, t ∉ o.cancelled → o.artifacts[t]? = whole.artifacts[t]?
  failures : ∀ t, t ∉ o.cancelled → o.failures[t]? = whole.failures[t]?

/-- Which targets a manner of work cancels. -/
structure Manner.Cancels (m : Manner) (p : Pipeline) (targets : List Provider) (o : Outcome) :
    Prop where
  inTurn : ∀ cancelAfter, m = .inTurn cancelAfter → o.cancelled.IsSuffix o.binding.keys
  sideBySide : ∀ events, m = .sideBySide events →
    (∀ t ∈ targets, (∃ v, p.bind t = .ok v) → Event.Runs events t) → o.mode = .full →
      o.cancelled = o.binding.keys.filter fun t ↦ ¬ Event.BeginsInTime events t

theorem Planned.cancels (h : Planned p g targets plan) (m : Manner) :
    m.Cancels p targets (assemble g plan (m.work (p.walk g) plan.binding.toList)) where
  inTurn := by
    rintro cancelAfter rfl
    rw [binding_assemble, ← Std.ExtTreeMap.map_fst_toList_eq_keys]
    cases cancelAfter with
    | none =>
      rw [Manner.work, cancelled_assemble_inTurn_none]
      exact List.nil_suffix
    | some k =>
      rw [Manner.work, cancelled_assemble_inTurn]
      exact List.drop_suffix k _
  sideBySide := by
    rintro events rfl hruns -
    rw [binding_assemble, ← Std.ExtTreeMap.map_fst_toList_eq_keys]
    apply cancelled_assemble_sideBySide (nodup_toList plan.binding)
    intro b hb
    obtain ⟨ht, hv⟩ := h.mem_toList_binding.1 hb
    exact hruns b.1 ht ⟨b.2, hv⟩

theorem Planned.spares (h : Planned p g targets plan) (m : Manner) :
    Spares (assemble g plan (m.work (p.walk g) plan.binding.toList))
      (assemble g plan (inTurn (p.walk g) none plan.binding.toList)) := by
  have hj := h.judged (m.worked (p.walk g) plan.binding)
  have hwhole := h.judged (worked_inTurn (p.walk g) none plan.binding.toList)
  have hnone (t : Provider) :
      t ∉ (assemble g plan (inTurn (p.walk g) none plan.binding.toList)).cancelled := by
    simp [cancelled_assemble_inTurn_none]
  refine ⟨rfl, rfl, rfl, fun t ht ↦ ?_, fun t ht ↦ ?_, fun t ht ↦ ?_⟩
  · obtain ⟨ht, v, hv⟩ := hj.cancelled t ht
    have hbinding := (hj.binding t v).2 ⟨ht, hv⟩
    rw [Std.ExtTreeMap.mem_iff_isSome_getElem?, hbinding]
    rfl
  · exact (hj.agree hwhole rfl Iff.rfl ht (hnone t)).1
  · exact (hj.agree hwhole rfl Iff.rfl ht (hnone t)).2

/-- Without cancellation, work side by side is work in turn, in whatever order it begins and ends.
A run that is cancelled, at whatever moment, has for each other target what the whole run has. In
turn it cancels the last of the bound targets, side by side those that begin too late. Once anything
is cancelled there is no composition, and nothing is kept. -/
theorem cancellation_confined (p : Pipeline) (c : RunCache) (g : ResourceGraph)
    (targets : List Provider) (previous : Option LockEntry) (root : Tree) :
    (∀ events, .cancel ∉ events →
      (∀ t ∈ targets, (∃ v, p.bind t = .ok v) → Event.Runs events t) →
        p.synthesizeConcurrently c g targets previous events =
          p.synthesize c g targets previous none) ∧
    (targets = [] → ∀ m : Manner,
      (p.call c ⟨g, targets, previous, m⟩).run root = ((.error .noTargets, c), root)) ∧
    (targets ≠ [] → ∃ whole c₀ root₀,
      (p.synthesize c g targets previous none).run root = ((.ok whole, c₀), root₀) ∧
        whole.cancelled = [] ∧ ∀ m : Manner, ∃ o c' root',
          (p.call c ⟨g, targets, previous, m⟩).run root = ((.ok o, c'), root') ∧
            Spares o whole ∧ m.Cancels p targets o ∧
            (o.cancelled ≠ [] → o.composition = none ∧ c' = c ∧ root' = root)) := by
  refine ⟨fun events hc hruns ↦ ?_, fun ht m ↦ ?_, fun hne ↦ ?_⟩
  · refine run_congr_work (fun plan hplan ↦ ?_) c previous
    refine sideBySide_eq_inTurn (nodup_toList plan.binding) (fun b hb ↦ ?_) hc
    obtain ⟨ht, hv⟩ := hplan.mem_toList_binding.1 hb
    exact hruns b.1 ht ⟨b.2, hv⟩
  · subst ht
    rw [call_eq_run]
    rfl
  · obtain ⟨plan, hplan⟩ := exists_planned (p := p) (g := g) hne
    simp only [call_eq_run, Pipeline.synthesize]
    rcases hplan.run_cases c previous root with ⟨run, c', -, hrun⟩ | hrun
    · refine ⟨_, _, _, hrun _, rfl, fun m ↦ ⟨_, _, _, hrun _, ?_, ?_, ?_⟩⟩
      · exact ⟨rfl, rfl, rfl, by simp [reused], fun _ _ ↦ rfl, fun _ _ ↦ rfl⟩
      · exact ⟨fun _ _ ↦ List.nil_suffix, fun _ _ _ hmode ↦ by cases hmode⟩
      · exact fun h ↦ absurd rfl h
    · refine ⟨_, _, _, hrun _, cancelled_assemble_inTurn_none _ _ _ _, fun m ↦
        ⟨_, _, _, hrun _, hplan.spares m, hplan.cancels m, fun hcancelled ↦ ?_⟩⟩
      have hj := hplan.judged (m.worked (p.walk g) plan.binding)
      rw [run_keep_of_cancelled hcancelled]
      refine ⟨Option.eq_none_iff_forall_ne_some.2 fun d hd ↦ ?_, rfl, rfl⟩
      exact hcancelled ((hj.composition d).1 hd).2.2.1

section Overlapping

open Shipped

def overlapping : List Event :=
  [.start gcp, .start cloudflare, .start aws, .finish aws, .finish gcp, .finish cloudflare]

theorem runs_overlapping : ∀ t ∈ mixed.targets, (∃ v, pinned.bind t = .ok v) →
    Event.Runs overlapping t := by
  have h : ∀ t ∈ mixed.targets, t = azure ∨ Event.Runs overlapping t := by decide
  intro t ht hv
  refine (h t ht).resolve_left ?_
  rintro rfl
  obtain ⟨v, hv⟩ := hv
  cases hv

theorem cancellation_confined_overlapping :
    pinned.synthesizeConcurrently .inMemory loneMachine mixed.targets none overlapping =
      pinned.synthesize .inMemory loneMachine mixed.targets none none ∧
    ∃ whole o c' root', (pinned.call .inMemory mixed).run (.dir []) = ((.ok o, c'), root') ∧
      Spares o whole ∧ told (.ok o) = some ([aws], [azure, cloudflare], [gcp]) ∧
      told (.ok whole) = some ([aws, gcp], [azure, cloudflare], []) ∧
      o.composition = none ∧ c' = .inMemory := by
  obtain ⟨hsame, -, hcancel⟩ := cancellation_confined pinned .inMemory loneMachine mixed.targets
    none (.dir [])
  obtain ⟨whole, c₀, root₀, hwhole, -, hm⟩ := hcancel (List.cons_ne_nil _ _)
  obtain ⟨o, c', root', hrun, hspares, -, hnone⟩ := hm mixed.manner
  have htold := told_mixed
  have htoldWhole : told ((pinned.synthesize .inMemory loneMachine mixed.targets none none).run
      (.dir [])).1.1 = some ([aws, gcp], [azure, cloudflare], []) := by decide +kernel
  have hcall : pinned.call .inMemory ⟨loneMachine, mixed.targets, none, mixed.manner⟩ =
      pinned.call .inMemory mixed := rfl
  rw [hcall] at hrun
  rw [hrun] at htold
  rw [hwhole] at htoldWhole
  obtain ⟨-, -, hcancelled⟩ := told_eq_some.1 htold
  obtain ⟨hcomposition, hc, -⟩ := hnone (by simp [hcancelled])
  exact ⟨hsame overlapping (by decide) runs_overlapping, whole, o, c', root', hrun, hspares, htold,
    htoldWhole, hcomposition, hc⟩

end Overlapping

end Multicloud.Pipeline
