import Multicloud.Proofs.Run.History
import Multicloud.Proofs.Run.Schedule
import Multicloud.Proofs.Run.Stocked

namespace Multicloud

variable {registry registry' : Registry} {t : Provider} {v : Version}

theorem walkTarget_congr (g : ResourceGraph) (h : registry'.ruleSet t v = registry.ruleSet t v) :
    walkTarget g registry' t v = walkTarget g registry t v := by
  unfold walkTarget
  rw [h]

theorem exists_ruleSet_of_walkTarget {g : ResourceGraph} {artifacts : List Artifact}
    (h : walkTarget g registry t v = .ok artifacts) : ∃ set, registry.ruleSet t v = .ok set := by
  unfold walkTarget at h
  split at h
  · cases h
  · next set hset => exact ⟨set, hset⟩

/-- What both registries have for a version of a provider is the same rule set. -/
def Registry.Agrees (registry registry' : Registry) : Prop :=
  ∀ t v set set', registry.ruleSet t v = .ok set → registry'.ruleSet t v = .ok set' → set = set'

theorem Registry.Agrees.ruleSet_eq {set set' : RuleSet} (h : registry.Agrees registry')
    (hset : registry.ruleSet t v = .ok set) (hset' : registry'.ruleSet t v = .ok set') :
    registry.ruleSet t v = registry'.ruleSet t v := by
  rw [hset, hset', h t v set set' hset hset']

namespace Pipeline

variable {p p' : Pipeline} {g : ResourceGraph} {targets : List Provider} {plan : Plan}
  {x : Call} {c c' : RunCache} {root root' : Tree} {run : StoredRun}
  {answer : Except SynthesisError Outcome}

def whole (p : Pipeline) (g : ResourceGraph) (plan : Plan) : Outcome :=
  assemble g plan (inTurn (p.walk g) none plan.binding.toList)

theorem Worked.eq_whole {runs : TargetRuns} (hw : Worked (p.walk g) plan.binding.toList runs)
    (hc : (assemble g plan runs).isComplete = true) : assemble g plan runs = whole p g plan :=
  congrArg (assemble g plan) (hw.complete hc).2.1

theorem whole_congr (h : ∀ b ∈ plan.binding.toList,
      p'.registry.ruleSet b.1 b.2 = p.registry.ruleSet b.1 b.2) :
    whole p' g plan = whole p g plan := by
  unfold whole
  rw [inTurn_none, inTurn_none]
  congr 1
  refine List.map_congr_left fun b hb ↦ ?_
  rw [walk, walk, walkTarget_congr g (h b hb)]

theorem Planned.exists_ruleSet (h : Planned p g targets plan) (hr : p.registry.Filled)
    {b : Provider × Version} (hb : b ∈ plan.binding.toList) :
    ∃ set, p.registry.ruleSet b.1 b.2 = .ok set := by
  have hget : plan.binding[b.1]? = some b.2 := Std.ExtTreeMap.mem_toList_iff_getElem?_eq_some.1 hb
  exact hr.exists_ruleSet (h.getElem?_binding.1 hget).2

/-- What is kept of some runs: under the key of each complete one, what it came to. -/
def Kept (past : Pipeline → ResourceGraph → List Provider → Prop) (key : String)
    (run : StoredRun) : Prop :=
  ∃ p g targets plan, past p g targets ∧ Planned p g targets plan ∧
    (whole p g plan).isComplete = true ∧ key = plan.binding.key p.digest plan.graphHash ∧
      run = (whole p g plan).stored

theorem Planned.call_cases (h : Planned p x.graph x.targets plan) (c : RunCache) (root : Tree) :
    (∃ run c', x.previous ≠ none ∧ plan.unbound = ∅ ∧
      (c.get (plan.binding.key p.digest plan.graphHash)).run root = ((some run, c'), root) ∧
      (p.call c x).run root = ((.ok (reused plan run), c'), root)) ∨
    (p.call c x).run root =
      let o := assemble x.graph plan (x.manner.work (p.walk x.graph) plan.binding.toList)
      let r := (p.keep c o).run root
      ((.ok o, r.1), r.2) := by
  rw [call_eq_run, Pipeline.run, h.plan_eq]
  dsimp only
  rcases p.run_reuse_cases c plan x.previous root with
    hr | ⟨e, run, c', he, hu, -, hget, hr⟩
  · refine .inr ?_
    rw [Script.run_bind, hr]
    dsimp only
    rw [Script.run_bind]
    rfl
  · refine .inl ⟨run, c', by simp [he], hu, hget, ?_⟩
    rw [Script.run_bind, hr]
    rfl

theorem run_call_of_plan_error {e : SynthesisError} (h : p.plan x.graph x.targets = .error e)
    (c : RunCache) (root : Tree) : (p.call c x).run root = ((.error e, c), root) := by
  rw [call_eq_run, Pipeline.run, h]
  rfl

theorem root_keep (hc : c.dir = none) (o : Outcome) (root : Tree) :
    ((p.keep c o).run root).2 = root := by
  unfold keep
  split
  · rw [RunCache.run_put, hc]
  · rfl

variable {past : Pipeline → ResourceGraph → List Provider → Prop}

theorem Came.kept_sound (h : Came p x c root answer c' root') (hp : p.digest = Digest.blake3)
    (hpast : past p x.graph x.targets) (hc : RunCache.Sound (Kept past) c root) :
    RunCache.Sound (Kept past) c' root' := by
  cases h with
  | refused ht => exact hc
  | reused hplan hu he hcovers hget =>
    exact (hc.get (isDigest_key_of_digest hp _ _) hget).2.1
  | @kept plan runs c' root' hplan hw hcomplete hput =>
    have hwhole := hw.eq_whole hcomplete
    have hkept : Kept past (plan.binding.key p.digest plan.graphHash)
        (assemble x.graph plan runs).stored :=
      ⟨p, x.graph, x.targets, plan, hpast, hplan, hwhole ▸ hcomplete, rfl, by rw [hwhole]⟩
    have hsound := hc.put (isDigest_key_of_digest hp plan.binding plan.graphHash) hkept
    rwa [hput] at hsound
  | dropped hplan hcomplete hw => exact hc

structure Regular (fed : Set ByteArray) (p : Pipeline) (g : ResourceGraph)
    (targets : List Provider) : Prop where
  digest : p.digest = Digest.blake3
  loaded : p.registry.Loaded
  feeds : Feeds fed p g targets

section Regular

variable {fed : Set ByteArray} {g' : ResourceGraph} {targets' : List Provider} {plan' : Plan}
  (hfed : Set.InjOn Digest.blake3 fed)

include hfed

theorem Planned.eq_of_key_eq (h : Planned p g targets plan) (h' : Planned p' g' targets' plan')
    (hp : Regular fed p g targets) (hp' : Regular fed p' g' targets')
    (hkey : plan.binding.key p.digest plan.graphHash =
      plan'.binding.key p'.digest plan'.graphHash) :
    g.stream = g'.stream ∧ plan.graphHash = plan'.graphHash ∧ plan.binding = plan'.binding := by
  obtain ⟨hgraph, hfeeds⟩ := hp.feeds plan h.plan_eq
  obtain ⟨hgraph', hfeeds'⟩ := hp'.feeds plan' h'.plan_eq
  rw [hp.digest, hp'.digest, Binding.key_eq, Binding.key_eq] at hkey
  obtain ⟨hhash, hbinding⟩ := Binding.stream_inj (h.isDigest_graphHash hp.digest).zero_not_mem
    (h'.isDigest_graphHash hp'.digest).zero_not_mem (hfed hfeeds hfeeds' hkey)
  refine ⟨hfed hgraph hgraph' ?_, hhash, hbinding⟩
  have he := h.graphHash.symm.trans (hhash.trans h'.graphHash)
  rwa [hp.digest, hp'.digest, ResourceGraph.hash_eq, ResourceGraph.hash_eq] at he

variable (hpast : ∀ p' g' targets', past p' g' targets' → Regular fed p' g' targets')

include hpast

theorem Kept.fits (hplan : Planned p g targets plan) (hp : Regular fed p g targets)
    (h : Kept past (plan.binding.key p.digest plan.graphHash) run) :
    run.Plain ∧ ∀ t ∈ run.artifacts, t ∈ targets := by
  obtain ⟨p', g', targets', plan', hmem, hplan', hc, hkey, rfl⟩ := h
  have hp' := hpast p' g' targets' hmem
  have hworked := worked_inTurn (p'.walk g') none plan'.binding.toList
  refine ⟨(hplan'.judged hworked).plain hp'.loaded, fun t ht ↦ ?_⟩
  obtain ⟨-, -, hbinding⟩ := hplan.eq_of_key_eq hfed hplan' hp hp' hkey
  have hbound := (hworked.mem_artifacts hc).1 ht
  rw [← hbinding, Std.ExtTreeMap.mem_iff_isSome_getElem?, Option.isSome_iff_exists] at hbound
  obtain ⟨v, hv⟩ := hbound
  exact (hplan.getElem?_binding.1 hv).1

/-- What is kept for a plan is what it comes to again, if no version has been given to other rules
since, and equal digests stand for equal graphs. -/
theorem Kept.eq_stored (hplan : Planned p g targets plan) (hp : Regular fed p g targets)
    (h : Kept past (plan.binding.key p.digest plan.graphHash) run)
    (hsteady : ∀ p' g' targets', past p' g' targets' →
      (g'.stream = g.stream → g' = g) ∧ p'.registry.Agrees p.registry)
    (hu : plan.unbound = ∅) :
    (whole p g plan).isComplete = true ∧ run = (whole p g plan).stored := by
  obtain ⟨p', g', targets', plan', hmem, hplan', hc, hkey, rfl⟩ := h
  obtain ⟨hgraph, hrules⟩ := hsteady p' g' targets' hmem
  obtain ⟨hu', -, hwalk⟩ := (worked_inTurn _ none _).complete hc
  obtain ⟨hstream, hhash, hbinding⟩ :=
    hplan.eq_of_key_eq hfed hplan' hp (hpast p' g' targets' hmem) hkey
  obtain rfl := hgraph hstream.symm
  obtain rfl : plan' = plan := hplan'.ext hplan hu' hu hhash.symm hbinding.symm
  have hwhole : whole p' g' plan' = whole p g' plan' := whole_congr fun b hb ↦ by
    obtain ⟨artifacts, hartifacts⟩ := hwalk b hb
    obtain ⟨set', hset'⟩ := exists_ruleSet_of_walkTarget hartifacts
    obtain ⟨set, hset⟩ := hplan.exists_ruleSet hp.loaded.filled hb
    exact hrules.ruleSet_eq hset' hset
  rw [← hwhole]
  exact ⟨hc, rfl⟩

theorem Came.fits {o : Outcome} (hp : Regular fed p x.graph x.targets)
    (hc : RunCache.Sound (Kept past) c root) (h : Came p x c root (.ok o) c' root') :
    o.stored.Plain ∧ ∀ t ∈ o.artifacts, t ∈ x.targets := by
  have hjudged {o : Outcome} (hj : Judged p x.graph x.targets o) :
      o.stored.Plain ∧ ∀ t ∈ o.artifacts, t ∈ x.targets :=
    ⟨hj.plain hp.loaded, fun t ht ↦ (hj.mem_artifacts.1 ht).1⟩
  cases h with
  | reused hplan hu he hcovers hget =>
    obtain ⟨-, -, hrun⟩ := hc.get (isDigest_key_of_digest hp.digest _ _) hget
    exact (hrun _ rfl).fits hfed hpast hplan hp
  | kept hplan hw hcomplete hput => exact hjudged (hplan.judged hw)
  | dropped hplan hcomplete hw => exact hjudged (hplan.judged hw)

end Regular

end Pipeline

end Multicloud
