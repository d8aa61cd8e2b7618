import Mathlib.Data.List.Nodup
import Multicloud.Proofs.Artifact.Progress
import Multicloud.Proofs.Registry
import Std.Data.TreeMap.Iterator

namespace Multicloud

namespace Rule

variable {rule : Rule} {r : Resource} {emitted : TextMap String} {before : List String}
  {s : Substitution} {e : MappingError}

/-- Why a substitution cannot be made for the resource after those with these ids. -/
inductive Refuses (rule : Rule) (before : List String) (r : Resource) (s : Substitution) :
    MappingError → Prop
  | missing : r.properties[s.property]? = none →
    rule.Refuses before r s (.missingProperty r.id s.property)
  | instanceClass {p : Property} : r.properties[s.property]? = some p →
    s.conversion = .instanceClass → p.display ∉ rule.tables.instanceClass →
    rule.Refuses before r s (.unknownInstanceClass rule.provider p.display)
  | performanceClass {p : Property} : r.properties[s.property]? = some p →
    s.conversion = .performanceClass → p.display ∉ rule.tables.performanceClass →
    rule.Refuses before r s (.unknownPerformanceClass rule.provider p.display)
  | reference {p : Property} : r.properties[s.property]? = some p →
    s.conversion = .reference → p.display ∉ before →
    rule.Refuses before r s (.unresolvedReference r.id p.display)

theorem Refuses.not_admits (h : rule.Refuses before r s e) : ¬ rule.Admits before r s := by
  rintro ⟨p, hp, hadmits⟩
  cases h with
  | missing hnone => simp [hp] at hnone
  | instanceClass hp' hc hclass =>
    obtain rfl := Option.some.inj (hp.symm.trans hp')
    rw [hc] at hadmits
    exact hclass hadmits
  | performanceClass hp' hc hclass =>
    obtain rfl := Option.some.inj (hp.symm.trans hp')
    rw [hc] at hadmits
    exact hclass hadmits
  | reference hp' hc hid =>
    obtain rfl := Option.some.inj (hp.symm.trans hp')
    rw [hc] at hadmits
    exact hid hadmits

theorem instanceType_eq_error_iff {name : String} : rule.instanceType name = .error e ↔
    name ∉ rule.tables.instanceClass ∧ e = .unknownInstanceClass rule.provider name := by
  rw [Std.ExtTreeMap.mem_iff_isSome_getElem?, instanceType]
  cases rule.tables.instanceClass[name]? <;> simp [eq_comm]

theorem storageTier_eq_error_iff {name : String} : rule.storageTier name = .error e ↔
    name ∉ rule.tables.performanceClass ∧ e = .unknownPerformanceClass rule.provider name := by
  rw [Std.ExtTreeMap.mem_iff_isSome_getElem?, storageTier]
  cases rule.tables.performanceClass[name]? <;> simp [eq_comm]

theorem substitute_eq_error_iff (he : ∀ id, id ∈ emitted ↔ id ∈ before) :
    rule.substitute r emitted s = .error e ↔ rule.Refuses before r s e := by
  have hmem (id : String) : emitted[id]? = none ↔ id ∉ before := by
    rw [← he, Std.ExtTreeMap.mem_iff_isSome_getElem?, Option.not_isSome_iff_eq_none]
  constructor
  · intro h
    unfold substitute at h
    split at h
    · next p hp =>
      have h := map_eq_error.1 h
      unfold value at h
      split at h
      · cases h
      · next hc =>
        obtain ⟨hclass, rfl⟩ := instanceType_eq_error_iff.1 (map_eq_error.1 h)
        exact .instanceClass hp hc hclass
      · next hc =>
        obtain ⟨hclass, rfl⟩ := storageTier_eq_error_iff.1 (map_eq_error.1 h)
        exact .performanceClass hp hc hclass
      · next hc =>
        split at h
        · cases h
        · next hnone =>
          cases h
          exact .reference hp hc ((hmem _).1 hnone)
    · next hnone =>
      cases h
      exact .missing hnone
  · intro h
    cases h with
    | missing hnone => rw [substitute, hnone]
    | instanceClass hp hc hclass =>
      rw [substitute, hp, map_eq_error, value, hc, map_eq_error]
      exact instanceType_eq_error_iff.2 ⟨hclass, rfl⟩
    | performanceClass hp hc hclass =>
      rw [substitute, hp, map_eq_error, value, hc, map_eq_error]
      exact storageTier_eq_error_iff.2 ⟨hclass, rfl⟩
    | reference hp hc hid =>
      rw [substitute, hp, map_eq_error, value, hc, (hmem _).2 hid]

theorem convert_eq_error_iff (he : ∀ id, id ∈ emitted ↔ id ∈ before) :
    rule.convert r emitted = .error e ↔ ∃ early s late, rule.substitutions = early ++ s :: late ∧
      (∀ t ∈ early, rule.Admits before r t) ∧ rule.Refuses before r s e := by
  have hconvert : rule.convert r emitted = .error e ↔
      rule.substitutions.mapM (rule.substitute r emitted) = .error e := by
    rw [convert]
    cases rule.substitutions.mapM (rule.substitute r emitted) <;>
      simp [bind, Except.bind, pure, Except.pure]
  simp only [hconvert, mapM_eq_error_iff, exists_substitute_eq_ok he, substitute_eq_error_iff he]

end Rule

namespace Walk

variable {set : RuleSet} {w w' : Walk} {before : List Resource} {r : Resource} {p : Provider}
  {e : MappingError} {f : TargetFailure}

/-- Why a resource cannot be mapped after these. Its kind comes before its identifier, and its
identifier before what its rule substitutes. -/
inductive Refuses (set : RuleSet) (before : List Resource) (r : Resource) : MappingError → Prop
  | noRule : set.rule? r.kind = none → Refuses set before r (.noRuleForKind r.kind set.provider)
  | collision {rule : Rule} {first : Resource} : set.rule? r.kind = some rule → first ∈ before →
    set.identifier first.id = set.identifier r.id →
    Refuses set before r (.identifierCollision set.provider (set.identifier r.id) first.id r.id)
  | substitution {rule : Rule} {early late : List Substitution} {s : Substitution}
    {e : MappingError} : set.rule? r.kind = some rule →
    (∀ b ∈ before, set.identifier b.id ≠ set.identifier r.id) →
    rule.substitutions = early ++ s :: late →
    (∀ t ∈ early, rule.Admits (before.map Resource.id) r t) →
    rule.Refuses (before.map Resource.id) r s e → Refuses set before r e

theorem Refuses.not_mappable (h : Refuses set before r e) :
    ¬ Mappable set (before.map Resource.id) r := by
  rintro ⟨hfresh, -, rule, hrule, hadmits⟩
  cases h with
  | noRule hnone => simp [hrule] at hnone
  | collision _ hfirst heq =>
    exact hfresh (heq ▸ List.mem_map_of_mem (List.mem_map_of_mem hfirst))
  | @substitution rule' early late s _ hrule' _ hs _ hrefuses =>
    obtain rfl := Option.some.inj (hrule.symm.trans hrule')
    exact hrefuses.not_admits (hadmits s (by simp [hs]))

theorem Refuses.exists_reference {id x : String}
    (h : Refuses set before r (.unresolvedReference id x)) :
    ∃ rule, set.rule? r.kind = some rule ∧ ∃ s ∈ rule.substitutions, s.conversion = .reference ∧
      ∃ p, r.properties[s.property]? = some p ∧ p.display = x ∧ x ∉ before.map Resource.id := by
  cases h with
  | @substitution rule early late s _ hrule _ hs _ hrefuses =>
    cases hrefuses with
    | reference hp hc hid => exact ⟨rule, hrule, s, by simp [hs], hc, _, hp, rfl, hid⟩

/-- The walk has come past these resources and knows which one has an identifier. -/
structure Passed (set : RuleSet) (before : List Resource) (w : Walk) : Prop
    extends Past set (before.map Resource.id) w where
  owner : ∀ target first, w.owners[target]? = some first ↔
    ∃ b ∈ before, set.identifier b.id = target ∧ b.id = first

theorem passed_start (set : RuleSet) : Passed set [] {} where
  toPast := past_start set
  owner target first := by simp

theorem Passed.owners_eq_none (hw : Passed set before w) {target : String} :
    w.owners[target]? = none ↔ ∀ b ∈ before, set.identifier b.id ≠ target := by
  rw [Option.eq_none_iff_forall_ne_some]
  simp only [ne_eq, hw.owner, not_exists, not_and]
  exact ⟨fun h b hb heq ↦ h b.id b hb heq rfl, fun h _ b hb heq _ ↦ h b hb heq⟩

theorem Passed.step (hw : Passed set before w) (h : w.visit set r = .ok w') :
    Passed set (before ++ [r]) w' := by
  refine ⟨by simpa using hw.toPast.step h, fun target first ↦ ?_⟩
  obtain ⟨rule, dependsOn, attributes, -, hfresh, -, -, rfl⟩ := visit_eq_ok h
  rw [Std.ExtTreeMap.getElem?_insert]
  simp only [Std.LawfulEqOrd.compare_eq_iff_eq, List.mem_append, List.mem_singleton, or_and_right,
    exists_or, exists_eq_left, ← hw.owner]
  by_cases htarget : set.identifier r.id = target
  · subst htarget
    simp [hfresh]
  · simp [htarget]

theorem Passed.visit_eq_error_iff (hw : Passed set before w)
    (hd : ∀ dep ∈ r.dependsOn, dep ∈ before.map Resource.id) :
    w.visit set r = .error e ↔ Refuses set before r e := by
  have hemitted : ∀ dep ∈ r.dependsOn, dep ∈ w.emitted :=
    fun dep hdep ↦ (hw.emitted dep).2 (hd dep hdep)
  obtain ⟨dependsOn, hd⟩ := exists_dependencies_eq_ok.2 hemitted
  constructor
  · intro h
    unfold visit at h
    split at h
    · next rule hrule =>
      dsimp only at h
      split at h
      · next first howner =>
        cases h
        obtain ⟨b, hb, heq, rfl⟩ := (hw.owner _ _).1 howner
        exact .collision hrule hb heq
      · next hnone =>
        have howner := Option.eq_none_iff_forall_ne_some.2 hnone
        have hconvert : rule.convert r w.emitted = .error e := by
          rw [hd] at h
          revert h
          cases rule.convert r w.emitted <;> simp [bind, Except.bind, pure, Except.pure]
        obtain ⟨early, s, late, hs, hearly, hrefuses⟩ :=
          (Rule.convert_eq_error_iff hw.emitted).1 hconvert
        exact .substitution hrule (hw.owners_eq_none.1 howner) hs hearly hrefuses
    · next hnone =>
      cases h
      exact .noRule (Option.eq_none_iff_forall_ne_some.2 hnone)
  · intro h
    cases h with
    | noRule hnone =>
      simp only [visit, hnone]
      rfl
    | collision hrule hfirst heq =>
      have howner := (hw.owner _ _).2 ⟨_, hfirst, heq, rfl⟩
      simp only [visit, hrule, howner]
      rfl
    | substitution hrule hfresh hs hearly hrefuses =>
      have howner := hw.owners_eq_none.2 hfresh
      have hconvert := (Rule.convert_eq_error_iff hw.emitted).2 ⟨_, _, _, hs, hearly, hrefuses⟩
      simp only [visit, hrule, howner, hd, hconvert]
      rfl

/-- A walk over these resources stops at one that is refused after those before it, when none of
those was. -/
structure StopsAt (set : RuleSet) (rs before : List Resource) (r : Resource) (e : MappingError) :
    Prop where
  split : ∃ after, rs = before ++ r :: after
  earlier : ∀ early b late, before = early ++ b :: late → ∀ e, ¬ Refuses set early b e
  refused : Refuses set before r e

theorem Passed.steps_eq_error_iff (hw : Passed set before w) (rs : List Resource)
    (hd : ∀ early b late, rs = early ++ b :: late →
      ∀ dep ∈ b.dependsOn, dep ∈ (before ++ early).map Resource.id) :
    w.steps p set rs = .error f ↔ ∃ early r late, rs = early ++ r :: late ∧ ∃ e,
      (∀ early' b late, early = early' ++ b :: late → ∀ e, ¬ Refuses set (before ++ early') b e) ∧
      Refuses set (before ++ early) r e ∧ f = failure p (some r) e := by
  induction rs generalizing w before with
  | nil => simp [steps]
  | cons r rs ih =>
    obtain ⟨hr, hrs⟩ := forall_split_cons.1 hd
    rw [List.append_nil] at hr
    simp only [exists_split_cons, forall_split_cons, steps, List.append_nil]
    cases hv : w.visit set r with
    | error e =>
      have hrefuses := (hw.visit_eq_error_iff hr).1 hv
      dsimp only
      constructor
      · intro h
        cases h
        exact .inl ⟨e, by simp, hrefuses, rfl⟩
      · rintro (⟨e', -, h, rfl⟩ | ⟨_, _, _, _, _, ⟨hnot, _⟩, _⟩)
        · rw [(hw.visit_eq_error_iff hr).2 h] at hv
          cases hv
          rfl
        · exact absurd hrefuses (hnot e)
    | ok w₁ =>
      have hnot : ∀ e, ¬ Refuses set before r e := by
        intro e h
        rw [(hw.visit_eq_error_iff hr).2 h] at hv
        cases hv
      have hstep := ih (hw.step hv)
        (by simpa only [List.append_assoc, List.singleton_append] using hrs)
      simp only [List.append_assoc, List.singleton_append] at hstep
      simp [hnot, hstep]

theorem StopsAt.nodup {rs : List Resource} (h : StopsAt set rs before r e) :
    (before.map fun b ↦ set.identifier b.id).Nodup := by
  refine nodup_map_iff_forall_split.2 fun early b late he hmem ↦ ?_
  obtain ⟨first, hfirst, heq⟩ := List.mem_map.1 hmem
  cases hrule : set.rule? b.kind with
  | none => exact h.earlier early b late he _ (.noRule hrule)
  | some rule => exact h.earlier early b late he _ (.collision hrule hfirst heq)

end Walk

variable {g : ResourceGraph} {registry : Registry} {p : Provider} {v : Version} {set : RuleSet}

theorem walkTarget_eq_error_iff (hs : registry.ruleSet p v = .ok set) {f : TargetFailure} :
    walkTarget g registry p v = .error f ↔ Walk.steps p set {} g.resources = .error f := by
  rw [walkTarget, hs, map_eq_error]

theorem walkTarget_eq_error_iff_stopsAt (hg : g.Accepted) (hs : registry.ruleSet p v = .ok set)
    {f : TargetFailure} : walkTarget g registry p v = .error f ↔
      ∃ before r e, Walk.StopsAt set g.resources before r e ∧ f = Walk.failure p (some r) e := by
  have hd : ∀ early b late, g.resources = early ++ b :: late →
      ∀ dep ∈ b.dependsOn, dep ∈ ([] ++ early).map Resource.id :=
    fun early b late he ↦ (hg.ordered he).1
  rw [walkTarget_eq_error_iff hs, (Walk.passed_start set).steps_eq_error_iff _ hd]
  simp only [List.nil_append]
  constructor
  · rintro ⟨before, r, after, he, e, hearlier, hrefuses, rfl⟩
    exact ⟨before, r, e, ⟨⟨after, he⟩, hearlier, hrefuses⟩, rfl⟩
  · rintro ⟨before, r, e, ⟨⟨after, he⟩, hearlier, hrefuses⟩, rfl⟩
    exact ⟨before, r, after, he, e, hearlier, hrefuses, rfl⟩

/-- A target of a registered rule set fails exactly if some resource cannot be mapped after those
before it. The failure tells of the first such resource, whose identifier at most one before it
has, and what is declared as a dependency is never told of as unresolved. -/
theorem walkTarget_stops_at_first (hg : g.Accepted) (hs : registry.ruleSet p v = .ok set) :
    ((∃ f, walkTarget g registry p v = .error f) ↔ ∃ before r after,
      g.resources = before ++ r :: after ∧ ∃ e, Walk.Refuses set before r e) ∧
    (∀ f, walkTarget g registry p v = .error f ↔
      ∃ before r e, Walk.StopsAt set g.resources before r e ∧ f = Walk.failure p (some r) e) ∧
    ∀ before r e, Walk.StopsAt set g.resources before r e →
      (before.map fun b ↦ set.identifier b.id).Nodup ∧
      ∀ id x, e = .unresolvedReference id x → x ∉ r.dependsOn := by
  refine ⟨⟨?_, ?_⟩, fun f ↦ walkTarget_eq_error_iff_stopsAt hg hs, fun before r e hstop ↦ ?_⟩
  · rintro ⟨f, hf⟩
    obtain ⟨before, r, e, ⟨⟨after, he⟩, -, hrefuses⟩, -⟩ :=
      (walkTarget_eq_error_iff_stopsAt hg hs).1 hf
    exact ⟨before, r, after, he, e, hrefuses⟩
  · rintro ⟨before, r, after, he, e, hrefuses⟩
    simp only [walkTarget_eq_error_iff hs]
    cases hsteps : Walk.steps p set {} g.resources with
    | error f => exact ⟨f, rfl⟩
    | ok w =>
      have hmappable := ((Walk.past_start set).exists_steps_eq_ok g.resources).1 ⟨w, hsteps⟩
      exact absurd (hmappable before r after he) hrefuses.not_mappable
  · obtain ⟨after, he⟩ := hstop.split
    refine ⟨hstop.nodup, ?_⟩
    rintro id x rfl hdep
    obtain ⟨-, -, -, -, -, -, -, -, hx⟩ := hstop.refused.exists_reference
    exact hx ((hg.ordered he).1 x hdep)

/-- Two nodes whose ids differ by a sign that no identifier has, and a route without properties. -/
def clashing : ResourceGraph where
  workload := "default/w"
  resources := [⟨"n-0", .computeNode, ∅, ∅⟩, ⟨"n_0", .computeNode, ∅, .of ["n-0"]⟩,
    ⟨"r", .ingressRoute, ∅, .of ["n_0"]⟩]

theorem walkTarget_stops_at_first_clashing :
    ∃ registry before r e, clashing.Accepted ∧ Registry.empty.register routing = .ok registry ∧
      registry.ruleSet routing.provider routing.version = .ok routing ∧
      walkTarget clashing registry routing.provider routing.version =
        .error (Walk.failure routing.provider (some r) e) ∧
      Walk.StopsAt routing clashing.resources before r e ∧
      e = .identifierCollision routing.provider "x_n_0" "n-0" "n_0" := by
  have hg : clashing.Accepted := by
    refine ⟨"default/w", clashing.resources, ?_⟩
    simp only [ResourceGraph.ofResources, ResourceMap.sweep_eq_runByList]
    decide +kernel
  have h : (Registry.empty.register routing).toOption.map (fun registry ↦
      walkTarget clashing registry routing.provider routing.version) =
      some (.error ⟨routing.provider, some "n_0", some .computeNode,
        .identifierCollision routing.provider "x_n_0" "n-0" "n_0"⟩) := by decide +kernel
  obtain ⟨registry, hr, hwalk⟩ := Option.map_eq_some_iff.1 h
  have hr := toOption_eq_some.1 hr
  have hs := Registry.ruleSet_of_register hr
  obtain ⟨before, r, e, hstop, hf⟩ := ((walkTarget_stops_at_first hg hs).2.1 _).1 hwalk
  exact ⟨registry, before, r, e, hg, hr, hs, hf ▸ hwalk, hstop,
    (congrArg TargetFailure.error hf).symm⟩

end Multicloud
