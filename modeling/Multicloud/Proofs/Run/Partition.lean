import Multicloud.Proofs.Artifact.Walk
import Multicloud.Proofs.Registry
import Multicloud.Proofs.Run.Call

namespace Multicloud

theorem Registry.Filled.exists_resource_of_error {registry : Registry} (h : registry.Filled)
    {g : ResourceGraph} {t : Provider} {v : Version} {pin : Option Version}
    (hb : registry.bind t pin = .ok v) {f : TargetFailure}
    (hw : walkTarget g registry t v = .error f) :
    ∃ r ∈ g.resources, ∃ e, f = Walk.failure t (some r) e := by
  obtain ⟨set, hset⟩ := h.exists_ruleSet hb
  rw [walkTarget, hset] at hw
  dsimp only at hw
  cases hsteps : Walk.steps t set {} g.resources with
  | ok w =>
    rw [hsteps] at hw
    cases hw
  | error f' =>
    rw [hsteps] at hw
    cases hw
    exact Walk.steps_eq_error hsteps

namespace TargetRun

theorem artifacts?_eq_some {r : TargetRun} {artifacts : List Artifact} :
    r.artifacts? = some artifacts ↔ r = .done artifacts := by
  cases r <;> simp [artifacts?]

theorem failure?_eq_some {r : TargetRun} {f : TargetFailure} :
    r.failure? = some f ↔ r = .failed f := by
  cases r <;> simp [failure?]

end TargetRun

namespace Pipeline

variable {p : Pipeline} {g : ResourceGraph} {targets : List Provider} {plan : Plan}
  {runs : TargetRuns} {t : Provider} {v : Version}

/-- What becomes of a target that is not cancelled. -/
def verdict (p : Pipeline) (g : ResourceGraph) (t : Provider) : TargetRun :=
  match p.bind t with
  | .ok v => p.walk g (t, v)
  | .error e => .failed (Walk.failure t none e)

theorem walk_ne_cancelled (p : Pipeline) (g : ResourceGraph) (b : Provider × Version) :
    p.walk g b ≠ .cancelled := by
  rw [Pipeline.walk]
  cases walkTarget g p.registry b.1 b.2 <;> simp [TargetRun.of]

theorem verdict_of_bind_eq_ok (h : p.bind t = .ok v) : p.verdict g t = p.walk g (t, v) := by
  rw [verdict, h]

theorem verdict_of_bind_eq_error {e : MappingError} (h : p.bind t = .error e) :
    p.verdict g t = .failed (Walk.failure t none e) := by
  rw [verdict, h]

theorem verdict_ne_cancelled (p : Pipeline) (g : ResourceGraph) (t : Provider) :
    p.verdict g t ≠ .cancelled := by
  cases h : p.bind t with
  | ok v => exact verdict_of_bind_eq_ok h ▸ walk_ne_cancelled p g (t, v)
  | error e => simp [verdict_of_bind_eq_error h]

theorem Worked.map_fst {walk : Provider × Version → TargetRun} {bound : Bound}
    (h : Worked walk bound runs) : runs.map Prod.fst = bound.map Prod.fst := by
  induction h with
  | nil => rfl
  | cons hrun _ ih => rw [List.map_cons, List.map_cons, ih, hrun.1]

/-- The outcome of a full run, read off the verdicts on its targets. -/
structure Judged (p : Pipeline) (g : ResourceGraph) (targets : List Provider) (o : Outcome) :
    Prop where
  artifacts : ∀ t artifacts, o.artifacts[t]? = some artifacts ↔
    t ∈ targets ∧ t ∉ o.cancelled ∧ p.verdict g t = .done artifacts
  failures : ∀ t f, o.failures[t]? = some f ↔
    t ∈ targets ∧ t ∉ o.cancelled ∧ p.verdict g t = .failed f
  cancelled : ∀ t ∈ o.cancelled, t ∈ targets ∧ ∃ v, p.bind t = .ok v
  nodup_cancelled : o.cancelled.Nodup
  binding : ∀ t v, o.binding[t]? = some v ↔ t ∈ targets ∧ p.bind t = .ok v
  composition : ∀ d, o.composition = some d ↔ (∃ t ∈ targets, ∃ t' ∈ targets, t ≠ t') ∧
    o.artifacts ≠ ∅ ∧ o.cancelled = [] ∧ Composition.compose g (g.hash p.digest) o.artifacts = d

theorem mem_cancelled_assemble :
    t ∈ (assemble g plan runs).cancelled ↔ (t, .cancelled) ∈ runs := by
  simp only [assemble, List.mem_map, List.mem_filter, decide_eq_true_eq]
  constructor
  · rintro ⟨run, ⟨hmem, hr⟩, rfl⟩
    exact hr ▸ hmem
  · intro h
    exact ⟨_, ⟨h, rfl⟩, rfl⟩

section Collected

variable {β : Type} {φ : TargetRun → Option β}

theorem nodup_fst_collected (hd : (runs.map Prod.fst).Nodup) :
    ((runs.filterMap fun (t, r) ↦ (φ r).map fun b ↦ (t, b)).map Prod.fst).Nodup :=
  nodup_fst_filterMap (k := Prod.fst) (fun run e he ↦ by
    obtain ⟨b, -, rfl⟩ := Option.map_eq_some_iff.1 he
    rfl) hd

theorem mem_collected {b : β} : (t, b) ∈ runs.filterMap (fun (t, r) ↦ (φ r).map fun b ↦ (t, b)) ↔
    ∃ r, (t, r) ∈ runs ∧ φ r = some b := by
  simp only [List.mem_filterMap, Option.map_eq_some_iff, Prod.mk.injEq]
  constructor
  · rintro ⟨⟨t', r⟩, hmem, b, hr, rfl, rfl⟩
    exact ⟨r, hmem, hr⟩
  · rintro ⟨r, hmem, hr⟩
    exact ⟨(t, r), hmem, b, hr, rfl, rfl⟩

end Collected

theorem getElem?_artifacts_assemble (hd : (runs.map Prod.fst).Nodup) {artifacts : List Artifact} :
    (assemble g plan runs).artifacts[t]? = some artifacts ↔ (t, .done artifacts) ∈ runs := by
  refine (getElem?_ofList_iff (nodup_fst_collected hd)).trans (mem_collected.trans ?_)
  simp only [TargetRun.artifacts?_eq_some, exists_eq_right]

theorem getElem?_failures_assemble (hd : (runs.map Prod.fst).Nodup)
    (hu : ∀ run ∈ runs, plan.unbound[run.1]? = none) {f : TargetFailure} :
    (assemble g plan runs).failures[t]? = some f ↔
      (t, .failed f) ∈ runs ∨ plan.unbound[t]? = some f := by
  refine (getElem?_insertMany_iff (nodup_fst_collected hd)).trans ?_
  simp only [mem_collected, TargetRun.failure?_eq_some, exists_eq_right]
  refine or_congr_right (and_iff_right_of_imp fun hf hkey ↦ ?_)
  obtain ⟨⟨t', f'⟩, hmem, rfl⟩ := List.mem_map.1 hkey
  obtain ⟨r, hrun, -⟩ := mem_collected.1 hmem
  simp [hu _ hrun] at hf

theorem Worked.mem_iff {walk : Provider × Version → TargetRun} {bound : Bound}
    (h : Worked walk bound runs) (hd : (bound.map Prod.fst).Nodup) {r : TargetRun}
    (hr : r ≠ .cancelled) : (t, r) ∈ runs ↔
      (t, .cancelled) ∉ runs ∧ ∃ v, (t, v) ∈ bound ∧ walk (t, v) = r := by
  constructor
  · intro hmem
    obtain ⟨⟨t', v⟩, hb, rfl, hrun⟩ := exists_of_forall₂_right h hmem
    refine ⟨fun hc ↦ ?_, v, hb, (hrun.resolve_right hr).symm⟩
    have heq := List.inj_on_of_nodup_map (h.map_fst ▸ hd) hmem hc rfl
    exact hr (Prod.mk.inj heq).2
  · rintro ⟨hc, v, hb, rfl⟩
    obtain ⟨⟨t', r⟩, hmem, rfl, hrun⟩ := exists_of_forall₂_left h hb
    rcases hrun with hrun | rfl
    · exact hrun ▸ hmem
    · exact absurd hmem hc

theorem composition_eq_some {artifacts : ArtifactMap} {cancelled : List Provider}
    {d : Composition} : composition g plan artifacts cancelled = some d ↔
      1 < plan.requested.length ∧ artifacts ≠ ∅ ∧ cancelled = [] ∧
        Composition.compose g plan.graphHash artifacts = d := by
  rw [composition, Option.ite_none_right_eq_some, Bool.and_eq_true, Bool.and_eq_true,
    Bool.not_eq_true', Bool.eq_false_iff, Ne, Std.ExtTreeMap.isEmpty_iff, List.isEmpty_iff,
    decide_eq_true_eq, Option.some.injEq, and_assoc, and_assoc]

theorem one_lt_length_iff {α : Type} {l : List α} (hd : l.Nodup) :
    1 < l.length ↔ ∃ a ∈ l, ∃ b ∈ l, a ≠ b := by
  match l with
  | [] => simp
  | [a] => simp
  | a :: b :: rest =>
    have hne : a ≠ b := fun he ↦ (List.nodup_cons.1 hd).1 (he ▸ List.mem_cons_self)
    exact ⟨fun _ ↦ ⟨a, .head _, b, .tail _ (.head _), hne⟩, fun _ ↦ by simp⟩

theorem Planned.one_lt_length (h : Planned p g targets plan) :
    1 < plan.requested.length ↔ ∃ t ∈ targets, ∃ t' ∈ targets, t ≠ t' := by
  simp only [one_lt_length_iff h.nodup_requested, h.mem_requested]

theorem Planned.mem_toList_binding (h : Planned p g targets plan) :
    (t, v) ∈ plan.binding.toList ↔ t ∈ targets ∧ p.bind t = .ok v := by
  rw [Std.ExtTreeMap.mem_toList_iff_getElem?_eq_some, h.getElem?_binding]

section Assembled

variable (h : Planned p g targets plan) (hw : Worked (p.walk g) plan.binding.toList runs)

include h hw

theorem Planned.bind_of_mem_runs {r : TargetRun} (hmem : (t, r) ∈ runs) :
    t ∈ targets ∧ ∃ v, p.bind t = .ok v := by
  obtain ⟨⟨_, v⟩, hb, rfl, -⟩ := exists_of_forall₂_right hw hmem
  obtain ⟨ht, hv⟩ := h.mem_toList_binding.1 hb
  exact ⟨ht, v, hv⟩

theorem Planned.unbound_of_mem_runs {r : TargetRun} (hmem : (t, r) ∈ runs) :
    plan.unbound[t]? = none := by
  obtain ⟨-, v, hv⟩ := h.bind_of_mem_runs hw hmem
  refine Option.eq_none_iff_forall_ne_some.2 fun f hf ↦ ?_
  obtain ⟨-, e, he, -⟩ := h.getElem?_unbound.1 hf
  rw [hv] at he
  cases he

theorem Planned.mem_runs_iff {r : TargetRun} (hr : r ≠ .cancelled) : (t, r) ∈ runs ↔
    t ∈ targets ∧ t ∉ (assemble g plan runs).cancelled ∧ (∃ v, p.bind t = .ok v) ∧
      p.verdict g t = r := by
  rw [hw.mem_iff (nodup_toList plan.binding) hr, mem_cancelled_assemble]
  constructor
  · rintro ⟨hc, v, hb, rfl⟩
    obtain ⟨ht, hv⟩ := h.mem_toList_binding.1 hb
    exact ⟨ht, hc, ⟨v, hv⟩, verdict_of_bind_eq_ok hv⟩
  · rintro ⟨ht, hc, ⟨v, hv⟩, rfl⟩
    exact ⟨hc, v, h.mem_toList_binding.2 ⟨ht, hv⟩, (verdict_of_bind_eq_ok hv).symm⟩

theorem Planned.getElem?_artifacts {artifacts : List Artifact} :
    (assemble g plan runs).artifacts[t]? = some artifacts ↔
      t ∈ targets ∧ t ∉ (assemble g plan runs).cancelled ∧ p.verdict g t = .done artifacts := by
  have hd : (runs.map Prod.fst).Nodup := hw.map_fst ▸ nodup_toList plan.binding
  rw [getElem?_artifacts_assemble hd, h.mem_runs_iff hw (by simp)]
  refine and_congr_right fun _ ↦ and_congr_right fun _ ↦ and_iff_right_of_imp fun hv ↦ ?_
  cases hb : p.bind t with
  | ok v => exact ⟨v, rfl⟩
  | error e => simp [verdict_of_bind_eq_error hb] at hv

/-- A target fails where its run fails, or before that where it cannot be bound. -/
theorem Planned.getElem?_failures {f : TargetFailure} :
    (assemble g plan runs).failures[t]? = some f ↔
      t ∈ targets ∧ t ∉ (assemble g plan runs).cancelled ∧ p.verdict g t = .failed f := by
  have hd : (runs.map Prod.fst).Nodup := hw.map_fst ▸ nodup_toList plan.binding
  rw [getElem?_failures_assemble hd fun run hmem ↦ h.unbound_of_mem_runs hw hmem,
    h.mem_runs_iff hw (by simp), h.getElem?_unbound]
  constructor
  · rintro (⟨ht, hc, -, hv⟩ | ⟨ht, e, he, rfl⟩)
    · exact ⟨ht, hc, hv⟩
    · refine ⟨ht, fun hc ↦ ?_, verdict_of_bind_eq_error he⟩
      obtain ⟨-, v, hv⟩ := h.bind_of_mem_runs hw (mem_cancelled_assemble.1 hc)
      rw [he] at hv
      cases hv
  · rintro ⟨ht, hc, hv⟩
    cases hb : p.bind t with
    | ok v => exact .inl ⟨ht, hc, ⟨v, rfl⟩, hv⟩
    | error e =>
      rw [verdict_of_bind_eq_error hb] at hv
      exact .inr ⟨ht, e, rfl, (TargetRun.failed.inj hv).symm⟩

theorem Planned.judged : Judged p g targets (assemble g plan runs) where
  artifacts _ _ := h.getElem?_artifacts hw
  failures _ _ := h.getElem?_failures hw
  cancelled _ hmem := h.bind_of_mem_runs hw (mem_cancelled_assemble.1 hmem)
  nodup_cancelled := by
    have hd : (runs.map Prod.fst).Nodup := hw.map_fst ▸ nodup_toList plan.binding
    exact hd.sublist (List.filter_sublist.map _)
  binding _ _ := h.getElem?_binding
  composition d := by
    rw [← h.one_lt_length, ← h.graphHash]
    exact composition_eq_some

end Assembled

theorem cancelled_assemble_inTurn_none (p : Pipeline) (g : ResourceGraph) (plan : Plan)
    (bound : Bound) :
    (assemble g plan (inTurn (p.walk g) none bound)).cancelled = [] := by
  refine List.eq_nil_iff_forall_not_mem.2 fun t ht ↦ ?_
  rw [mem_cancelled_assemble, inTurn_none] at ht
  obtain ⟨b, -, hb⟩ := List.mem_map.1 ht
  exact walk_ne_cancelled p g b (Prod.mk.inj hb).2

/-- The outcome tells what became of each target, once for each of them and of none of the
others. -/
structure Partitions (p : Pipeline) (g : ResourceGraph) (targets : List Provider) (o : Outcome) :
    Prop where
  requested : ∀ t, t ∈ targets ↔ t ∈ o.artifacts ∨ t ∈ o.failures ∨ t ∈ o.cancelled
  not_failed : ∀ t ∈ o.artifacts, t ∉ o.failures
  not_cancelled : ∀ t, t ∈ o.artifacts ∨ t ∈ o.failures → t ∉ o.cancelled
  nodup_cancelled : o.cancelled.Nodup
  binding : ∀ t v, o.binding[t]? = some v ↔ t ∈ targets ∧ p.bind t = .ok v
  resource : ∀ t f, o.failures[t]? = some f →
    f.provider = t ∧ (f.resource = none ↔ ∃ e, p.bind t = .error e)
  composition : o.composition.isSome ↔
    (∃ t ∈ targets, ∃ t' ∈ targets, t ≠ t') ∧ o.artifacts ≠ ∅ ∧ o.cancelled = []
  providers : ∀ d, o.composition = some d → d.providers = o.artifacts.keys
  isComplete : o.isComplete = true ↔ ∀ t ∈ targets, t ∈ o.artifacts
  check : o.check = .ok () ↔ o.isComplete = true

theorem check_eq_ok {o : Outcome} : o.check = .ok () ↔ o.isComplete = true := by
  rw [Outcome.check, Outcome.isComplete, Bool.and_eq_true]
  cases o.cancelled.isEmpty <;> cases o.failures.isEmpty <;> simp

namespace Judged

variable {o : Outcome}

theorem mem_artifacts (h : Judged p g targets o) : t ∈ o.artifacts ↔
    t ∈ targets ∧ t ∉ o.cancelled ∧ ∃ artifacts, p.verdict g t = .done artifacts := by
  rw [Std.ExtTreeMap.mem_iff_isSome_getElem?, Option.isSome_iff_exists]
  simp only [h.artifacts, exists_and_left]

theorem mem_failures (h : Judged p g targets o) : t ∈ o.failures ↔
    t ∈ targets ∧ t ∉ o.cancelled ∧ ∃ f, p.verdict g t = .failed f := by
  rw [Std.ExtTreeMap.mem_iff_isSome_getElem?, Option.isSome_iff_exists]
  simp only [h.failures, exists_and_left]

theorem requested (h : Judged p g targets o) :
    t ∈ targets ↔ t ∈ o.artifacts ∨ t ∈ o.failures ∨ t ∈ o.cancelled := by
  rw [h.mem_artifacts, h.mem_failures]
  constructor
  · intro ht
    by_cases hc : t ∈ o.cancelled
    · exact .inr (.inr hc)
    cases hv : p.verdict g t with
    | done artifacts => exact .inl ⟨ht, hc, artifacts, rfl⟩
    | failed f => exact .inr (.inl ⟨ht, hc, f, rfl⟩)
    | cancelled => exact absurd hv (verdict_ne_cancelled p g t)
  · rintro (⟨ht, -⟩ | ⟨ht, -⟩ | hc)
    · exact ht
    · exact ht
    · exact (h.cancelled t hc).1

theorem not_failed (h : Judged p g targets o) (ha : t ∈ o.artifacts) : t ∉ o.failures := by
  rw [h.mem_failures]
  rintro ⟨-, -, f, hf⟩
  obtain ⟨-, -, artifacts, hv⟩ := h.mem_artifacts.1 ha
  rw [hv] at hf
  cases hf

theorem resource (h : Judged p g targets o) (hr : p.registry.Filled) {f : TargetFailure}
    (hf : o.failures[t]? = some f) :
    f.provider = t ∧ (f.resource = none ↔ ∃ e, p.bind t = .error e) := by
  obtain ⟨-, -, hv⟩ := (h.failures t f).1 hf
  cases hb : p.bind t with
  | error e =>
    rw [verdict_of_bind_eq_error hb] at hv
    cases hv
    exact ⟨rfl, by simp [Walk.failure]⟩
  | ok v =>
    rw [verdict_of_bind_eq_ok hb, Pipeline.walk] at hv
    cases hw : walkTarget g p.registry t v with
    | ok artifacts =>
      rw [hw] at hv
      cases hv
    | error f' =>
      rw [hw] at hv
      cases hv
      obtain ⟨r, -, e, rfl⟩ := hr.exists_resource_of_error hb hw
      exact ⟨rfl, by simp [Walk.failure]⟩

theorem composition_isSome (h : Judged p g targets o) : o.composition.isSome ↔
    (∃ t ∈ targets, ∃ t' ∈ targets, t ≠ t') ∧ o.artifacts ≠ ∅ ∧ o.cancelled = [] := by
  rw [Option.isSome_iff_exists]
  simp only [h.composition, exists_and_left, exists_eq', and_true]

theorem isComplete (h : Judged p g targets o) :
    o.isComplete = true ↔ ∀ t ∈ targets, t ∈ o.artifacts := by
  rw [Outcome.isComplete_iff]
  constructor
  · rintro ⟨hf, hc⟩ t ht
    simpa [hf, hc] using h.requested.1 ht
  · intro hall
    refine ⟨Std.ExtTreeMap.eq_empty_iff_forall_not_mem.2 fun t ht ↦ ?_,
      List.eq_nil_iff_forall_not_mem.2 fun t ht ↦ ?_⟩
    · exact h.not_failed (hall t (h.mem_failures.1 ht).1) ht
    · exact (h.mem_artifacts.1 (hall t (h.cancelled t ht).1)).2.1 ht

theorem partitions (h : Judged p g targets o) (hr : p.registry.Filled) :
    Partitions p g targets o where
  requested _ := h.requested
  not_failed _ := h.not_failed
  not_cancelled _ := fun ht ↦ ht.elim (fun ht ↦ (h.mem_artifacts.1 ht).2.1)
    fun ht ↦ (h.mem_failures.1 ht).2.1
  nodup_cancelled := h.nodup_cancelled
  binding := h.binding
  resource _ _ := h.resource hr
  composition := h.composition_isSome
  providers d hd := by
    obtain ⟨-, -, -, rfl⟩ := (h.composition d).1 hd
    rfl
  isComplete := h.isComplete
  check := check_eq_ok

theorem agree {p' : Pipeline} {targets' : List Provider} {o' : Outcome} (h : Judged p g targets o)
    (h' : Judged p' g targets' o') (hv : p.verdict g t = p'.verdict g t)
    (ht : t ∈ targets ↔ t ∈ targets') (hc : t ∉ o.cancelled) (hc' : t ∉ o'.cancelled) :
    o.artifacts[t]? = o'.artifacts[t]? ∧ o.failures[t]? = o'.failures[t]? := by
  constructor
  · refine Option.ext fun artifacts ↦ ?_
    simp only [h.artifacts, h'.artifacts, hv, ht, hc, hc']
  · refine Option.ext fun f ↦ ?_
    simp only [h.failures, h'.failures, hv, ht, hc, hc']

end Judged

/-- The run for this target alone, without an earlier entry and without cancellation, does the
same for it. -/
def StandsAlone (p : Pipeline) (g : ResourceGraph) (o : Outcome) (t : Provider) : Prop :=
  ∀ (c : RunCache) (root : Tree), ∃ o' c' root',
    (p.synthesize c g [t] none none).run root = ((.ok o', c'), root') ∧ o'.mode = .full ∧
      o'.artifacts[t]? = o.artifacts[t]? ∧ o'.failures[t]? = o.failures[t]?

theorem Judged.standsAlone {o : Outcome} (h : Judged p g targets o) (ht : t ∈ targets)
    (hc : t ∉ o.cancelled) : StandsAlone p g o t := by
  intro c root
  obtain ⟨plan, hplan⟩ := exists_planned (p := p) (g := g) (List.cons_ne_nil t [])
  rcases hplan.run_cases c none root with ⟨run, c', hne, -⟩ | hrun
  · exact absurd rfl hne
  · have hw := worked_inTurn (p.walk g) none plan.binding.toList
    have hnone := cancelled_assemble_inTurn_none p g plan plan.binding.toList
    obtain ⟨ha, hf⟩ := (hplan.judged hw).agree h rfl (by simp [ht]) (by simp [hnone]) hc
    exact ⟨_, _, _, hrun _, rfl, ha, hf⟩

/-- A run with targets has an outcome, however its targets are worked on and whenever it is
cancelled. A full one partitions the targets into those with artifacts, those that failed and those
that were cancelled, and neither what a target comes to nor how it fails depends on the others. -/
theorem call_partitions (hr : p.registry.Filled) (c : RunCache) (x : Call) (root : Tree)
    (hne : x.targets ≠ []) :
    ∃ o c' root', (p.call c x).run root = ((.ok o, c'), root') ∧
      (x.previous = none → o.mode = .full) ∧
      (o.mode = .full → Partitions p x.graph x.targets o ∧
        ∀ t ∈ x.targets, t ∉ o.cancelled → StandsAlone p x.graph o t) := by
  rw [call_eq_run]
  obtain ⟨plan, hplan⟩ := exists_planned (p := p) (g := x.graph) hne
  rcases hplan.run_cases c x.previous root with ⟨run, c', hprevious, hrun⟩ | hrun
  · refine ⟨_, _, _, hrun _, fun hnone ↦ absurd hnone hprevious, ?_⟩
    rintro ⟨⟩
  · have hj := hplan.judged (x.manner.worked (p.walk x.graph) plan.binding)
    refine ⟨_, _, _, hrun _, fun _ ↦ rfl, fun _ ↦ ⟨hj.partitions hr, ?_⟩⟩
    intro t ht hc
    exact hj.standsAlone ht hc

section Mixed

open Shipped

def pinned : Pipeline where
  registry := .builtin
  pins := .of [(aws, v1), (azure, v1_1), (cloudflare, v1), (gcp, v1)]

def loneMachine : ResourceGraph where
  workload := "default/w"
  resources := [⟨"compute-0", .computeNode,
    .of [("name", .text "compute-0"), ("instance_class", .text "small")], ∅⟩]

def mixed : Call := ⟨loneMachine, [gcp, azure, aws, cloudflare, aws], none, .inTurn (some 2)⟩

def told : Except SynthesisError Outcome → Option (List Provider × List Provider × List Provider)
  | .ok o => some (o.artifacts.keys, o.failures.keys, o.cancelled)
  | .error _ => none

theorem told_eq_some {o : Outcome} {done failed cancelled : List Provider} :
    told (.ok o) = some (done, failed, cancelled) ↔
      o.artifacts.keys = done ∧ o.failures.keys = failed ∧ o.cancelled = cancelled := by
  simp [told]

theorem told_mixed : told ((pinned.call .inMemory mixed).run (.dir [])).1.1 =
    some ([aws], [azure, cloudflare], [gcp]) := by
  decide +kernel

theorem call_partitions_mixed :
    ∃ o c' root', (pinned.call .inMemory mixed).run (.dir []) = ((.ok o, c'), root') ∧
      told (.ok o) = some ([aws], [azure, cloudflare], [gcp]) ∧ o.mode = .full ∧
      Partitions pinned loneMachine mixed.targets o ∧
      StandsAlone pinned loneMachine o cloudflare := by
  obtain ⟨o, c', root', hrun, hmode, hfull⟩ := call_partitions (p := pinned)
    Registry.filled_builtin .inMemory mixed (.dir []) (List.cons_ne_nil _ _)
  have htold := told_mixed
  rw [hrun] at htold
  obtain ⟨-, -, hcancelled⟩ := told_eq_some.1 htold
  obtain ⟨hparts, halone⟩ := hfull (hmode rfl)
  refine ⟨o, c', root', hrun, htold, hmode rfl, hparts, halone cloudflare ?_ ?_⟩
  · decide
  · rw [hcancelled]
    decide

end Mixed

end Pipeline

end Multicloud
