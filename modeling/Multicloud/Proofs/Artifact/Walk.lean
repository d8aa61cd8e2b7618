import Multicloud.Artifact.Walk
import Multicloud.Proofs.Fallible

namespace Multicloud

namespace Rule

variable {rule : Rule} {r : Resource} {emitted : TextMap String}

theorem convert_eq_ok {attributes : List (String × Hcl.Value)}
    (h : rule.convert r emitted = .ok attributes) :
    ∃ substituted, List.Forall₂ (fun s e ↦ rule.substitute r emitted s = .ok e)
        rule.substitutions substituted ∧
      attributes = substituted ++
        (rule.attributes.filter fun a ↦ !substituted.any fun b ↦ b.1 == a.1).map
          fun (k, v) ↦ (k, .ofProperty v) := by
  obtain ⟨substituted, hs, h⟩ := bind_eq_ok.1 h
  cases h
  exact ⟨substituted, mapM_eq_ok hs, rfl⟩

theorem substitute_eq_ok {s : Substitution} {e : String × Hcl.Value}
    (h : rule.substitute r emitted s = .ok e) :
    ∃ p, r.properties[s.property]? = some p ∧ e.1 = s.argument ∧
      rule.value r emitted s p = .ok e.2 := by
  unfold substitute at h
  split at h
  · next p hp =>
    obtain ⟨v, hv, rfl⟩ := map_eq_ok.1 h
    exact ⟨p, hp, rfl, hv⟩
  · cases h

theorem value_reference {s : Substitution} {p : Property} {v : Hcl.Value}
    (hs : s.conversion = .reference) (h : rule.value r emitted s p = .ok v) :
    ∃ target, emitted[p.display]? = some target ∧
      v = .expr (Hcl.moduleOutput target (s.output.getD "id")) := by
  rw [value, hs] at h
  dsimp only at h
  split at h
  · next target ht =>
    cases h
    exact ⟨target, ht, rfl⟩
  · cases h

theorem ofProperty_ne_expr (p : Property) (x : String) : Hcl.Value.ofProperty p ≠ .expr x := by
  cases p <;> simp [Hcl.Value.ofProperty]

theorem reference_of_value_eq_expr {s : Substitution} {p : Property} {x : String}
    (h : rule.value r emitted s p = .ok (.expr x)) : s.conversion = .reference := by
  unfold value at h
  split at h
  · exact absurd (Except.ok.inj h) (ofProperty_ne_expr p x)
  · obtain ⟨t, -, h⟩ := map_eq_ok.1 h
    cases h
  · obtain ⟨t, -, h⟩ := map_eq_ok.1 h
    cases h
  · assumption

theorem instanceType_eq_ok_iff {name t : String} :
    rule.instanceType name = .ok t ↔ rule.tables.instanceClass[name]? = some t := by
  rw [instanceType]
  cases rule.tables.instanceClass[name]? <;> simp

theorem storageTier_eq_ok_iff {name t : String} :
    rule.storageTier name = .ok t ↔ rule.tables.performanceClass[name]? = some t := by
  rw [storageTier]
  cases rule.tables.performanceClass[name]? <;> simp

theorem mem_of_convert_eq_ok {attributes : List (String × Hcl.Value)}
    (h : rule.convert r emitted = .ok attributes) {s : Substitution}
    (hmem : s ∈ rule.substitutions) :
    ∃ p, r.properties[s.property]? = some p ∧
      (s.conversion = .instanceClass → p.display ∈ rule.tables.instanceClass) ∧
      (s.conversion = .performanceClass → p.display ∈ rule.tables.performanceClass) := by
  obtain ⟨substituted, hs, -⟩ := convert_eq_ok h
  obtain ⟨e, -, h⟩ := exists_of_forall₂_left hs hmem
  obtain ⟨p, hp, -, hv⟩ := substitute_eq_ok h
  refine ⟨p, hp, fun hc ↦ ?_, fun hc ↦ ?_⟩
  · rw [value, hc] at hv
    obtain ⟨t, ht, -⟩ := map_eq_ok.1 hv
    exact Std.ExtTreeMap.mem_iff_isSome_getElem?.2 (by simp [instanceType_eq_ok_iff.1 ht])
  · rw [value, hc] at hv
    obtain ⟨t, ht, -⟩ := map_eq_ok.1 hv
    exact Std.ExtTreeMap.mem_iff_isSome_getElem?.2 (by simp [storageTier_eq_ok_iff.1 ht])

/-- References become outputs of modules among these, and nothing else becomes an expression. -/
structure Refers (rule : Rule) (r : Resource) (before : List Artifact)
    (attributes : List (String × Hcl.Value)) : Prop where
  reference : ∀ s ∈ rule.substitutions, s.conversion = .reference →
    ∃ p, r.properties[s.property]? = some p ∧ ∃ a ∈ before, a.logicalId = p.display ∧
      (s.argument, .expr (Hcl.moduleOutput a.targetId (s.output.getD "id"))) ∈ attributes
  expression : ∀ argument x, (argument, .expr x) ∈ attributes →
    ∃ s ∈ rule.substitutions, s.conversion = .reference ∧ s.argument = argument ∧
      ∃ a ∈ before, x = Hcl.moduleOutput a.targetId (s.output.getD "id")

theorem convert_refers {attributes : List (String × Hcl.Value)} {before : List Artifact}
    (he : ∀ id target : String, emitted[id]? = some target →
      ∃ a ∈ before, a.logicalId = id ∧ a.targetId = target)
    (h : rule.convert r emitted = .ok attributes) : rule.Refers r before attributes := by
  obtain ⟨substituted, hs, rfl⟩ := convert_eq_ok h
  constructor
  · intro s hmem hc
    obtain ⟨e, hmem, h⟩ := exists_of_forall₂_left hs hmem
    obtain ⟨p, hp, harg, hv⟩ := substitute_eq_ok h
    obtain ⟨target, ht, hv⟩ := value_reference hc hv
    obtain ⟨a, ha, hid, rfl⟩ := he _ _ ht
    exact ⟨p, hp, a, ha, hid, List.mem_append_left _ (by rwa [← harg, ← hv])⟩
  · intro argument x hmem
    rcases List.mem_append.1 hmem with hmem | hmem
    · obtain ⟨s, hmem, h⟩ := exists_of_forall₂_right hs hmem
      obtain ⟨p, hp, harg, hv⟩ := substitute_eq_ok h
      have hc := reference_of_value_eq_expr hv
      obtain ⟨target, ht, hx⟩ := value_reference hc hv
      obtain ⟨a, ha, -, rfl⟩ := he _ _ ht
      exact ⟨s, hmem, hc, harg.symm, a, ha, Hcl.Value.expr.inj hx⟩
    · obtain ⟨⟨k, v⟩, -, h⟩ := List.mem_map.1 hmem
      exact absurd (congrArg Prod.snd h) (ofProperty_ne_expr v x)

end Rule

namespace Walk

variable {set : RuleSet}

/-- The artifact of a resource, after these. -/
structure Translated (set : RuleSet) (before : List Artifact) (r : Resource) (a : Artifact) :
    Prop where
  logicalId : a.logicalId = r.id
  logicalKind : a.logicalKind = r.kind
  targetId : a.targetId = set.idStart ++ String.ofList (r.id.toList.map Name.identifierChar)
  fresh : ∀ b ∈ before, b.targetId ≠ a.targetId
  dependsOn : a.dependsOn = r.dependsOn.toList.map set.identifier
  earlier : ∀ dep ∈ r.dependsOn, ∃ b ∈ before, b.logicalId = dep ∧
    b.targetId = set.identifier dep
  attributes : ∃ rule emitted attributes, set.rule? r.kind = some rule ∧
    rule.convert r emitted = .ok attributes ∧
    a.body = (block set rule r attributes a.dependsOn).render ∧ rule.Refers r before attributes

/-- The tables of a walk tell of its artifacts. -/
structure Tells (set : RuleSet) (w : Walk) : Prop where
  emitted : ∀ id target : String, w.emitted[id]? = some target →
    ∃ a ∈ w.artifacts.reverse, a.logicalId = id ∧ a.targetId = target
  identifier : ∀ id target : String, w.emitted[id]? = some target → target = set.identifier id
  owners : ∀ a ∈ w.artifacts.reverse, w.owners[a.targetId]? ≠ none

theorem tells_start : Tells set {} where
  emitted id target h := by simp at h
  identifier id target h := by simp at h
  owners a h := by simp at h

theorem dependencies_eq_ok {r : Resource} {emitted : TextMap String} {dependsOn : List String}
    (h : dependencies r emitted = .ok dependsOn) :
    List.Forall₂ (fun dep target ↦ emitted[dep]? = some target) r.dependsOn.toList dependsOn := by
  refine (mapM_eq_ok h).imp fun dep target h ↦ ?_
  split at h
  · next t ht =>
    cases h
    exact ht
  · cases h

theorem visit_eq_ok {w w' : Walk} {r : Resource} (h : w.visit set r = .ok w') :
    ∃ rule dependsOn attributes, set.rule? r.kind = some rule ∧
      w.owners[set.identifier r.id]? = none ∧ dependencies r w.emitted = .ok dependsOn ∧
      rule.convert r w.emitted = .ok attributes ∧
      w' = { emitted := w.emitted.insert r.id (set.identifier r.id)
             owners := w.owners.insert (set.identifier r.id) r.id
             artifacts := artifact set rule r attributes dependsOn :: w.artifacts } := by
  unfold visit at h
  split at h
  · next rule hrule =>
    dsimp only at h
    split at h
    · cases h
    · next hnone =>
      obtain ⟨dependsOn, hd, h⟩ := bind_eq_ok.1 h
      obtain ⟨attributes, ha, h⟩ := bind_eq_ok.1 h
      cases h
      have hfresh := Option.eq_none_iff_forall_ne_some.2 hnone
      exact ⟨rule, dependsOn, attributes, hrule, hfresh, hd, ha, rfl⟩
  · cases h

theorem visit_of {w : Walk} {r : Resource} {rule : Rule} {dependsOn : List String}
    {attributes : List (String × Hcl.Value)} (hrule : set.rule? r.kind = some rule)
    (hfresh : w.owners[set.identifier r.id]? = none)
    (hdependsOn : dependencies r w.emitted = .ok dependsOn)
    (hconvert : rule.convert r w.emitted = .ok attributes) :
    w.visit set r = .ok
      { emitted := w.emitted.insert r.id (set.identifier r.id)
        owners := w.owners.insert (set.identifier r.id) r.id
        artifacts := artifact set rule r attributes dependsOn :: w.artifacts } := by
  simp [visit, hrule, hfresh, hdependsOn, hconvert, bind, Except.bind, pure, Except.pure]

theorem Tells.extend {w : Walk} (hw : Tells set w) {a : Artifact}
    (ha : a.targetId = set.identifier a.logicalId) :
    Tells set { emitted := w.emitted.insert a.logicalId a.targetId
                owners := w.owners.insert a.targetId a.logicalId
                artifacts := a :: w.artifacts } := by
  constructor
  · intro id target h
    rw [List.reverse_cons]
    rw [Std.ExtTreeMap.getElem?_insert] at h
    split at h
    · next heq =>
      refine ⟨a, List.mem_concat_self, ?_, Option.some.inj h⟩
      exact Std.LawfulEqOrd.eq_of_compare heq
    · obtain ⟨b, hmem, h⟩ := hw.emitted id target h
      exact ⟨b, List.mem_append_left _ hmem, h⟩
  · intro id target h
    rw [Std.ExtTreeMap.getElem?_insert] at h
    split at h
    · next heq =>
      rw [← Std.LawfulEqOrd.eq_of_compare heq, ← ha]
      exact (Option.some.inj h).symm
    · exact hw.identifier id target h
  · intro b hmem
    rw [List.reverse_cons] at hmem
    rw [Std.ExtTreeMap.getElem?_insert]
    split
    · simp
    · next hne =>
      rcases List.mem_append.1 hmem with hmem | hmem
      · exact hw.owners b hmem
      · rw [List.mem_singleton.1 hmem] at hne
        exact absurd Std.ReflCmp.compare_self hne

theorem Tells.step {w w' : Walk} {r : Resource} (hw : Tells set w) (h : w.visit set r = .ok w') :
    Tells set w' ∧ ∃ a, w'.artifacts.reverse = w.artifacts.reverse ++ [a] ∧
      Translated set w.artifacts.reverse r a := by
  obtain ⟨rule, dependsOn, attributes, hrule, hfresh, hd, ha, rfl⟩ := visit_eq_ok h
  have hd := dependencies_eq_ok hd
  refine ⟨hw.extend (a := artifact set rule r attributes dependsOn) rfl,
    artifact set rule r attributes dependsOn, List.reverse_cons, ?_⟩
  constructor
  · rfl
  · rfl
  · rfl
  · rintro b hmem heq
    exact hw.owners b hmem (heq ▸ hfresh)
  · have hd := hd.imp fun dep target ↦ hw.identifier dep target
    have hd := List.forall₂_map_right_iff.2 hd.flip
    rwa [List.forall₂_eq_eq_eq] at hd
  · intro dep hdep
    obtain ⟨target, -, h⟩ := exists_of_forall₂_left hd (Std.ExtTreeSet.mem_toList.2 hdep)
    obtain ⟨b, hmem, hid, ht⟩ := hw.emitted dep target h
    exact ⟨b, hmem, hid, ht.trans (hw.identifier dep target h)⟩
  · refine ⟨rule, w.emitted, attributes, hrule, ha, ?_, Rule.convert_refers hw.emitted ha⟩
    simp only [artifact]

inductive Translates (set : RuleSet) : List Resource → List Artifact → Prop
  | start : Translates set [] []
  | next {rs : List Resource} {as : List Artifact} {r : Resource} {a : Artifact} :
    Translates set rs as → Translated set as r a → Translates set (rs ++ [r]) (as ++ [a])

namespace Translates

variable {rs : List Resource} {as : List Artifact}

theorem length_eq (h : Translates set rs as) : as.length = rs.length := by
  induction h with
  | start => rfl
  | next h _ ih => simp [ih]

theorem nodup (h : Translates set rs as) : (as.map Artifact.targetId).Nodup := by
  induction h with
  | start => exact List.nodup_nil
  | next h ha ih =>
    rw [List.map_append, List.nodup_append]
    refine ⟨ih, List.pairwise_singleton _ _, fun t ht u hu ↦ ?_⟩
    obtain ⟨b, hb, rfl⟩ := List.mem_map.1 ht
    rw [List.mem_singleton.1 hu]
    exact ha.fresh b hb

theorem translated (h : Translates set rs as) {i : Nat} {r : Resource} (hr : rs[i]? = some r) :
    ∃ a, as[i]? = some a ∧ Translated set (as.take i) r a := by
  induction h with
  | start => cases hr
  | @next rs as s b h hb ih =>
    rcases Nat.lt_trichotomy i rs.length with hi | rfl | hi
    · rw [List.getElem?_append_left hi] at hr
      obtain ⟨a, ha, ht⟩ := ih hr
      have hi : i < as.length := h.length_eq ▸ hi
      refine ⟨a, by rwa [List.getElem?_append_left hi], ?_⟩
      rwa [List.take_append_of_le_length (Nat.le_of_lt hi)]
    · rw [List.getElem?_concat_length, Option.some.injEq] at hr
      subst hr
      rw [← h.length_eq]
      exact ⟨b, List.getElem?_concat_length, by rwa [List.take_left]⟩
    · rw [List.getElem?_eq_none (by rwa [List.length_append])] at hr
      cases hr

end Translates

theorem Tells.run {p : Provider} {w w' : Walk} {before rs : List Resource} (hw : Tells set w)
    (hb : Translates set before w.artifacts.reverse) (h : w.steps p set rs = .ok w') :
    Translates set (before ++ rs) w'.artifacts.reverse := by
  induction rs generalizing w before with
  | nil =>
    cases h
    rwa [List.append_nil]
  | cons r rs ih =>
    rw [steps] at h
    split at h
    · next w₁ h₁ =>
      obtain ⟨hw₁, a, ha, ht⟩ := hw.step h₁
      rw [List.append_cons]
      exact ih hw₁ (ha ▸ hb.next ht) h
    · cases h

theorem steps_eq_error {p : Provider} {w : Walk} {rs : List Resource} {f : TargetFailure}
    (h : w.steps p set rs = .error f) : ∃ r ∈ rs, ∃ e, f = failure p (some r) e := by
  induction rs generalizing w with
  | nil => cases h
  | cons r rs ih =>
    rw [steps] at h
    split at h
    · obtain ⟨r', hr', hf⟩ := ih h
      exact ⟨r', .tail _ hr', hf⟩
    · next e _ =>
      cases h
      exact ⟨r, .head _, e, rfl⟩

end Walk

variable {g : ResourceGraph} {registry : Registry} {p : Provider} {v : Version}

theorem translates_of_walkTarget {artifacts : List Artifact}
    (h : walkTarget g registry p v = .ok artifacts) :
    ∃ set, registry.ruleSet p v = .ok set ∧ Walk.Translates set g.resources artifacts := by
  unfold walkTarget at h
  split at h
  · cases h
  · next set hset =>
    obtain ⟨w, hw, rfl⟩ := map_eq_ok.1 h
    exact ⟨set, hset, Walk.tells_start.run .start hw⟩

/-- A target that succeeds has an artifact for each resource, in the order of the graph, with
identifiers of its own. What an artifact waits for or refers to is the module of one before it. -/
theorem walkTarget_ordered {artifacts : List Artifact}
    (h : walkTarget g registry p v = .ok artifacts) :
    ∃ set, registry.ruleSet p v = .ok set ∧ artifacts.length = g.resources.length ∧
      (artifacts.map Artifact.targetId).Nodup ∧
      ∀ (i : Nat) r, g.resources[i]? = some r →
        ∃ a, artifacts[i]? = some a ∧ Walk.Translated set (artifacts.take i) r a := by
  obtain ⟨set, hset, ht⟩ := translates_of_walkTarget h
  exact ⟨set, hset, ht.length_eq, ht.nodup, fun i r hr ↦ ht.translated hr⟩

def reached : ResourceGraph where
  workload := "default/w"
  resources := [⟨"n", .computeNode, ∅, ∅⟩,
    ⟨"r-0", .ingressRoute, .of [("target", .text "n")], .of ["n"]⟩]

def routing : RuleSet where
  provider := ⟨"p", by decide⟩
  version := ⟨"1", [1], by decide⟩
  description := ""
  idStart := "x_"
  rule? k := some
    { kind := k, provider := ⟨"p", by decide⟩, version := ⟨"1", [1], by decide⟩, artifact := "m"
      moduleSource := "s", moduleVersion := "1", attributes := [], tables := {}
      substitutions := if k = .ingressRoute then [⟨"target", "to", .reference, none⟩] else [] }

theorem walkTarget_ordered_reached :
    ∃ registry artifacts, Registry.empty.register routing = .ok registry ∧
      walkTarget reached registry routing.provider routing.version = .ok artifacts ∧
      artifacts.map Artifact.targetId = ["x_n", "x_r_0"] ∧
      ∃ set, ∀ (i : Nat) r, reached.resources[i]? = some r →
        ∃ a, artifacts[i]? = some a ∧ Walk.Translated set (artifacts.take i) r a := by
  have h : (match Registry.empty.register routing with
      | .ok registry => (walkTarget reached registry routing.provider routing.version).map
          (List.map Artifact.targetId)
      | .error _ => .ok []) = .ok ["x_n", "x_r_0"] := by decide +kernel
  split at h
  · next registry hr =>
    obtain ⟨artifacts, ha, ht⟩ := map_eq_ok.1 h
    obtain ⟨set, -, -, -, h⟩ := walkTarget_ordered ha
    exact ⟨registry, artifacts, hr, ha, ht, set, h⟩
  · cases h

end Multicloud
