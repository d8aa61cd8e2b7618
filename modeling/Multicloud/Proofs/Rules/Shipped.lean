import Multicloud.Proofs.Artifact.Walk
import Multicloud.Proofs.Graph.Separation
import Multicloud.Rules.Shipped

namespace Multicloud

open Text (Clean)

namespace Rule

/-- Machines and volumes have a class of the tables, where no class has a separator. -/
structure Guards (rule : Rule) : Prop where
  machine : rule.kind = .computeNode →
    ∃ s ∈ rule.substitutions, s.property = "instance_class" ∧ s.conversion = .instanceClass
  storage : rule.kind = .volume →
    ∃ s ∈ rule.substitutions, s.property = "performance_class" ∧ s.conversion = .performanceClass
  instanceClass : ∀ k ∈ rule.tables.instanceClass.keys, Clean k.toList
  performanceClass : ∀ k ∈ rule.tables.performanceClass.keys, Clean k.toList

instance (rule : Rule) : Decidable rule.Guards :=
  decidable_of_iff
    ((rule.kind = .computeNode →
        ∃ s ∈ rule.substitutions, s.property = "instance_class" ∧ s.conversion = .instanceClass) ∧
      (rule.kind = .volume →
        ∃ s ∈ rule.substitutions,
          s.property = "performance_class" ∧ s.conversion = .performanceClass) ∧
      (∀ k ∈ rule.tables.instanceClass.keys, Clean k.toList) ∧
      ∀ k ∈ rule.tables.performanceClass.keys, Clean k.toList)
    ⟨fun ⟨h₁, h₂, h₃, h₄⟩ ↦ ⟨h₁, h₂, h₃, h₄⟩, fun ⟨h₁, h₂, h₃, h₄⟩ ↦ ⟨h₁, h₂, h₃, h₄⟩⟩

end Rule

namespace Registry

theorem foldl_insert_spec {P : RuleSet → Prop} (ds : List RuleSetDraft)
    (sets : Std.ExtTreeMap Provider (Std.ExtTreeMap Version RuleSet))
    (hds : ∀ d ∈ ds, P d.finish)
    (hsets : ∀ (p : Provider) (vs : Std.ExtTreeMap Version RuleSet), sets[p]? = some vs →
      ∀ (v : Version) (set : RuleSet), vs[v]? = some set → P set) :
    ∀ (p : Provider) (vs : Std.ExtTreeMap Version RuleSet), (ds.foldl (fun sets d ↦
      sets.insert d.provider ((sets.getD d.provider ∅).insert d.version d.finish)) sets)[p]? =
        some vs → ∀ (v : Version) (set : RuleSet), vs[v]? = some set → P set := by
  induction ds generalizing sets with
  | nil => exact hsets
  | cons d ds ih =>
    refine ih _ (fun d hd ↦ hds d (.tail _ hd)) fun p vs hp v set hv ↦ ?_
    rw [Std.ExtTreeMap.getElem?_insert] at hp
    split at hp
    · cases hp
      rw [Std.ExtTreeMap.getElem?_insert] at hv
      split at hv
      · cases hv
        exact hds d (.head _)
      · rw [Std.ExtTreeMap.getD_eq_getD_getElem?] at hv
        cases hs : sets[d.provider]? with
        | none => simp [hs] at hv
        | some vs =>
          rw [hs] at hv
          exact hsets _ _ hs _ _ hv
    · exact hsets _ _ hp _ _ hv

theorem guards_drafts : ∀ d ∈ Shipped.drafts, ∀ k ∈ Kind.all,
    (d.finish.rule? k).all fun rule ↦ rule.Guards := by decide +kernel

theorem exists_draft_of_builtin {p : Provider} {v : Version} {set : RuleSet}
    (h : builtin.ruleSet p v = .ok set) : ∃ d ∈ Shipped.drafts, set = d.finish := by
  have hall := foldl_insert_spec (P := fun set ↦ ∃ d ∈ Shipped.drafts, set = d.finish)
    Shipped.drafts ∅ (fun d hd ↦ ⟨d, hd, rfl⟩) (by simp)
  unfold ruleSet at h
  split at h
  · cases h
  · next vs hvs =>
    split at h
    · cases h
    · next hset =>
      cases h
      exact hall p vs hvs v set hset

theorem guards_of_builtin {p : Provider} {v : Version} {set : RuleSet}
    (h : builtin.ruleSet p v = .ok set) {k : Kind} {rule : Rule} (hr : set.rule? k = some rule) :
    rule.kind = k ∧ rule.Guards := by
  obtain ⟨d, hd, rfl⟩ := exists_draft_of_builtin h
  have hg := guards_drafts d hd k k.mem_all
  rw [hr] at hg
  refine ⟨?_, by simpa using hg⟩
  obtain ⟨r, -, rfl⟩ := Option.map_eq_some_iff.1 hr
  rfl

end Registry

namespace ResourceGraph

variable {spec : WorkloadSpec} {g : ResourceGraph} {p : Provider} {v : Version}
  {artifacts : List Artifact}

theorem guards_of_walkTarget (h : walkTarget g .builtin p v = .ok artifacts) {r : Resource}
    (hr : r ∈ g.resources) :
    ∃ (rule : Rule) (emitted : TextMap String) (attributes : List (String × Hcl.Value)),
      rule.kind = r.kind ∧ rule.Guards ∧ rule.convert r emitted = .ok attributes := by
  obtain ⟨set, hset, ht⟩ := translates_of_walkTarget h
  obtain ⟨i, hi⟩ := List.mem_iff_getElem?.1 hr
  obtain ⟨a, -, ht⟩ := ht.translated hi
  obtain ⟨rule, emitted, attributes, hrule, hc, -⟩ := ht.attributes
  obtain ⟨hk, hguards⟩ := Registry.guards_of_builtin hset hrule
  exact ⟨rule, emitted, attributes, hk, hguards, hc⟩

/-- A class that a shipped rule knows has no separator in it. -/
theorem tame_of_walkTarget (hb : build spec = .ok g)
    (h : walkTarget g .builtin p v = .ok artifacts) : Tame spec := by
  obtain ⟨-, -, -, hmachine, hvolume⟩ := of_build_eq_ok hb
  constructor
  · obtain ⟨rule, emitted, attributes, hk, hguards, hc⟩ := guards_of_walkTarget h hmachine
    obtain ⟨s, hs, hproperty, hconversion⟩ := hguards.machine hk
    obtain ⟨p, hp, hmem, -⟩ := Rule.mem_of_convert_eq_ok hc hs
    rw [hproperty, (Made.computeNode 0).instanceClass rfl] at hp
    cases hp
    exact hguards.instanceClass _ (Std.ExtTreeMap.mem_keys.2 (hmem hconversion))
  · intro hp'
    obtain ⟨rule, emitted, attributes, hk, hguards, hc⟩ := guards_of_walkTarget h (hvolume hp')
    obtain ⟨s, hs, hproperty, hconversion⟩ := hguards.storage hk
    obtain ⟨p, hp, -, hmem⟩ := Rule.mem_of_convert_eq_ok hc hs
    rw [hproperty, (Made.volume 0 hp').performanceClass rfl] at hp
    cases hp
    exact hguards.performanceClass _ (Std.ExtTreeMap.mem_keys.2 (hmem hconversion))

end ResourceGraph

end Multicloud
