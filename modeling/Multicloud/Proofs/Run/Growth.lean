import Multicloud.Proofs.Registry.Run
import Multicloud.Proofs.Run.Steady

namespace Multicloud

namespace Registry

variable {g g' : Registry} {p : Provider} {v : Version} {set : RuleSet} {log : List RuleSet}

/-- All that is found in the one is found in the other. -/
def Extends (g g' : Registry) : Prop :=
  ∀ p v set, g.ruleSet p v = .ok set → g'.ruleSet p v = .ok set

theorem Registers.extends (h : Registers g log g') : g.Extends g' :=
  fun _ _ _ hset ↦ h.ruleSet_eq_ok_iff.2 (.inl hset)

theorem Runs.extends {steps : List Step} (h : Runs g steps g') : g.Extends g' := by
  obtain ⟨parts, -, hlog⟩ := h.exists_registers
  exact hlog.extends

/-- Every version of the provider in the second registry is in the first one. -/
def GainsNone (g g' : Registry) (p : Provider) : Prop :=
  ∀ v set, g'.ruleSet p v = .ok set → ∃ there, g.ruleSet p v = .ok there

theorem Extends.bind_none (h : g.Extends g') (hgain : g.GainsNone g' p)
    (hb : g.bind p none = .ok v) : g'.bind p none = .ok v := by
  rw [bind_none_eq_ok] at hb ⊢
  obtain ⟨⟨set, hset⟩, hgreatest⟩ := hb
  refine ⟨⟨set, h p v set hset⟩, fun w set' hset' ↦ ?_⟩
  obtain ⟨there, hthere⟩ := hgain w set' hset'
  exact hgreatest w there hthere

theorem Extends.bind_some (h : g.Extends g') {pin : Version} (hb : g.bind p (some pin) = .ok v) :
    g'.bind p (some pin) = .ok v := by
  obtain ⟨set, hset, hv⟩ := map_eq_ok.1 hb
  exact map_eq_ok.2 ⟨set, h p pin set hset, hv⟩

end Registry

namespace Pipeline

variable {p : Pipeline} {registry : Registry} {t : Provider} {v : Version} {g : ResourceGraph}

def withRegistry (p : Pipeline) (registry : Registry) : Pipeline := { p with registry }

theorem bind_withRegistry (h : p.registry.Extends registry) (hb : p.bind t = .ok v)
    (hkeep : t ∈ p.pins ∨ p.registry.GainsNone registry t) :
    (p.withRegistry registry).bind t = .ok v := by
  have hbind : p.registry.bind t p.pins[t]? = .ok v := hb
  show registry.bind t p.pins[t]? = .ok v
  cases hpin : p.pins[t]? with
  | some pin => exact h.bind_some (hpin ▸ hbind)
  | none =>
    refine h.bind_none (hkeep.resolve_left fun hmem ↦ ?_) (hpin ▸ hbind)
    rw [Std.ExtTreeMap.mem_iff_isSome_getElem?, hpin] at hmem
    cases hmem

/-- What becomes of a target that is bound to the same version is the same. -/
theorem verdict_withRegistry (hr : p.registry.Filled) (h : p.registry.Extends registry)
    (hb : p.bind t = .ok v) (hb' : (p.withRegistry registry).bind t = .ok v) :
    (p.withRegistry registry).verdict g t = p.verdict g t := by
  obtain ⟨set, hset⟩ := hr.exists_ruleSet hb
  have hsame : registry.ruleSet t v = p.registry.ruleSet t v := by rw [hset, h t v set hset]
  rw [verdict_of_bind_eq_ok hb, verdict_of_bind_eq_ok hb', walk, walk]
  exact congrArg TargetRun.of (walkTarget_congr g hsame)

/-- A target that is bound and that is pinned, or for whose provider there is nothing new, is bound
in the same way by a registry that has grown, and comes to the same in a full run, whatever becomes
of the others. -/
theorem growth_spares (hr : p.registry.Filled) {steps : List Registry.Step}
    (hruns : Registry.Runs p.registry steps registry) (hb : p.bind t = .ok v)
    (hkeep : t ∈ p.pins ∨ p.registry.GainsNone registry t) :
    (p.withRegistry registry).bind t = .ok v ∧
    ∀ (x x' : Call) (c c' d d' : RunCache) (root root' left left' : Tree) (o o' : Outcome),
      x'.graph = x.graph → t ∈ x.targets → t ∈ x'.targets →
      (p.call c x).run root = ((.ok o, d), left) → o.mode = .full →
      ((p.withRegistry registry).call c' x').run root' = ((.ok o', d'), left') → o'.mode = .full →
      o.binding[t]? = some v ∧ o'.binding[t]? = some v ∧
      (t ∉ o.cancelled → t ∉ o'.cancelled → o.artifacts[t]? = o'.artifacts[t]? ∧
        o.failures[t]? = o'.failures[t]? ∧ (t ∈ o.artifacts ∨ t ∈ o.failures)) := by
  have hb' := bind_withRegistry hruns.extends hb hkeep
  refine ⟨hb', fun x x' c c' d d' root root' left left' o o' hgraph ht ht' hx hmode hx' hmode' ↦ ?_⟩
  have hj := (came_of_run hx).judged hmode
  have hj' := (came_of_run hx').judged hmode'
  rw [hgraph] at hj'
  refine ⟨(hj.binding t v).2 ⟨ht, hb⟩, (hj'.binding t v).2 ⟨ht', hb'⟩, fun hc hc' ↦ ?_⟩
  have hv := (verdict_withRegistry (g := x.graph) hr hruns.extends hb hb').symm
  obtain ⟨hartifacts, hfailures⟩ := hj.agree hj' hv (by simp [ht, ht']) hc hc'
  refine ⟨hartifacts, hfailures, ?_⟩
  rcases hj.requested.1 ht with ha | hf | hcancelled
  · exact .inl ha
  · exact .inr hf
  · exact absurd hcancelled hc

section Pinned

open Shipped

def nextText : String :=
  "provider: aws\nversion: \"9\"\nrules:\n  compute_node:\n    artifact: vm\n    module: acme/vm\n" ++
  "    module_version: \"1\"\n"

theorem exists_loadText_nextText :
    ∃ registry, Registry.builtin.loadText "next" nextText = .ok registry := by
  have h : (Registry.builtin.loadText "next" nextText).toOption.isSome = true := by
    rw [Registry.loadText, RuleSet.ofText,
      show nextText.toList = _ from RuleSet.toList_ofList_append _ _]
    decide +kernel
  obtain ⟨registry, hload⟩ := Option.isSome_iff_exists.1 h
  exact ⟨registry, toOption_eq_some.1 hload⟩

theorem bind_pinned_aws : pinned.bind aws = .ok v1 := by
  rw [← toOption_eq_some]
  decide +kernel

def both : Call := ⟨loneMachine, [gcp, aws], none, .inTurn none⟩

theorem exists_call_both (p : Pipeline) : ∃ o c,
    (p.call .inMemory both).run (.dir []) = ((.ok o, c), .dir []) ∧ o.mode = .full ∧
      o.cancelled = [] := by
  obtain ⟨plan, hplan⟩ := exists_planned (p := p) (g := loneMachine) (List.cons_ne_nil gcp [aws])
  rcases Planned.call_cases (x := both) hplan .inMemory (.dir []) with ⟨_, _, hne, -⟩ | hrun
  · exact absurd rfl hne
  · exact ⟨_, _, hrun.trans (Prod.ext rfl (root_keep rfl _ _)), rfl,
      cancelled_assemble_inTurn_none p loneMachine plan plan.binding.toList⟩

theorem growth_spares_pinned : ∃ registry o o' c c',
    Registry.Runs .builtin [⟨.loadText "next" nextText, .ok (), registry⟩] registry ∧
    (pinned.call .inMemory both).run (.dir []) = ((.ok o, c), .dir []) ∧
    ((pinned.withRegistry registry).call .inMemory both).run (.dir []) = ((.ok o', c'), .dir []) ∧
    o'.binding[aws]? = some v1 ∧ o.artifacts[aws]? = o'.artifacts[aws]? ∧
    o.failures[aws]? = o'.failures[aws]? ∧ (aws ∈ o.artifacts ∨ aws ∈ o.failures) := by
  obtain ⟨registry, hload⟩ := exists_loadText_nextText
  obtain ⟨o, c, hrun, hmode, hnone⟩ := exists_call_both pinned
  obtain ⟨o', c', hrun', hmode', hnone'⟩ := exists_call_both (pinned.withRegistry registry)
  have hgrown := Registry.Runs.cons (.loaded hload) (.nil registry)
  obtain ⟨-, hspares⟩ := growth_spares (p := pinned) Registry.filled_builtin hgrown bind_pinned_aws
    (.inl (by decide +kernel))
  obtain ⟨-, hbinding, hsame⟩ := hspares both both _ _ _ _ _ _ _ _ o o' rfl (by decide) (by decide)
    hrun hmode hrun' hmode'
  exact ⟨registry, o, o', c, c', hgrown, hrun, hrun', hbinding, hsame (by simp [hnone])
    (by simp [hnone'])⟩

end Pinned

end Pipeline

end Multicloud
