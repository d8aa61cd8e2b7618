import Mathlib.Data.List.Nodup
import Multicloud.Proofs.Artifact.Walk
import Multicloud.Proofs.Graph.Acceptance

namespace Multicloud

section Split

variable {α : Type} {P : List α → α → Prop} {a : α} {l : List α}

theorem forall_split_cons :
    (∀ early b late, a :: l = early ++ b :: late → P early b) ↔
      P [] a ∧ ∀ early b late, l = early ++ b :: late → P (a :: early) b := by
  constructor
  · intro h
    exact ⟨h [] a l rfl, fun early b late he ↦ h (a :: early) b late (congrArg (a :: ·) he)⟩
  · rintro ⟨ha, hl⟩ early b late he
    obtain ⟨rfl, hhead⟩ | ⟨early', rfl, hrest⟩ := List.cons_eq_append_iff.1 he
    · obtain ⟨rfl, -⟩ := List.cons.inj hhead
      exact ha
    · exact hl early' b late hrest

theorem exists_split_cons :
    (∃ early b late, a :: l = early ++ b :: late ∧ P early b) ↔
      P [] a ∨ ∃ early b late, l = early ++ b :: late ∧ P (a :: early) b := by
  simpa only [not_forall, not_and_or, not_not, exists_prop] using
    not_congr (forall_split_cons (P := fun early b ↦ ¬ P early b))

theorem nodup_map_iff_forall_split {β : Type} {f : α → β} :
    (l.map f).Nodup ↔ ∀ early a late, l = early ++ a :: late → f a ∉ early.map f := by
  constructor
  · rintro h early a late rfl
    rw [List.map_append, List.map_cons, List.nodup_append] at h
    intro hmem
    exact h.2.2 (f a) hmem (f a) (.head _) rfl
  · intro h
    induction l using List.reverseRecOn with
    | nil => exact .nil
    | append_singleton l x ih =>
      have hx : f x ∉ l.map f := h l x [] rfl
      have hl : (l.map f).Nodup := ih fun early a late he ↦
        h early a (late ++ [x]) (by rw [he, List.append_assoc, List.cons_append])
      rw [List.map_append, List.map_singleton, ← List.concat_eq_append]
      exact hl.concat hx

end Split

namespace Rule

variable {rule : Rule} {r : Resource} {emitted : TextMap String} {before : List String}

/-- The substitution can be made for the resource after those with these ids. -/
def Admits (rule : Rule) (before : List String) (r : Resource) (s : Substitution) : Prop :=
  ∃ p, r.properties[s.property]? = some p ∧
    match s.conversion with
    | .verbatim => True
    | .instanceClass => p.display ∈ rule.tables.instanceClass
    | .performanceClass => p.display ∈ rule.tables.performanceClass
    | .reference => p.display ∈ before

theorem exists_instanceType_eq_ok {name : String} :
    (∃ t, rule.instanceType name = .ok t) ↔ name ∈ rule.tables.instanceClass := by
  simp only [instanceType_eq_ok_iff, Std.ExtTreeMap.mem_iff_isSome_getElem?,
    Option.isSome_iff_exists]

theorem exists_storageTier_eq_ok {name : String} :
    (∃ t, rule.storageTier name = .ok t) ↔ name ∈ rule.tables.performanceClass := by
  simp only [storageTier_eq_ok_iff, Std.ExtTreeMap.mem_iff_isSome_getElem?,
    Option.isSome_iff_exists]

theorem exists_value_eq_ok {s : Substitution} {p : Property} :
    (∃ v, rule.value r emitted s p = .ok v) ↔
      match s.conversion with
      | .verbatim => True
      | .instanceClass => p.display ∈ rule.tables.instanceClass
      | .performanceClass => p.display ∈ rule.tables.performanceClass
      | .reference => p.display ∈ emitted := by
  unfold value
  cases s.conversion with
  | verbatim => simp
  | instanceClass => simp [map_eq_ok, ← exists_instanceType_eq_ok, exists_comm]
  | performanceClass => simp [map_eq_ok, ← exists_storageTier_eq_ok, exists_comm]
  | reference =>
    simp only [Std.ExtTreeMap.mem_iff_isSome_getElem?]
    cases emitted[p.display]? <;> simp

theorem exists_substitute_eq_ok (he : ∀ id, id ∈ emitted ↔ id ∈ before) {s : Substitution} :
    (∃ e, rule.substitute r emitted s = .ok e) ↔ rule.Admits before r s := by
  unfold substitute Admits
  cases r.properties[s.property]? with
  | none => simp
  | some p =>
    have hmap : (∃ e, (rule.value r emitted s p).map (fun v ↦ (s.argument, v)) = .ok e) ↔
        ∃ v, rule.value r emitted s p = .ok v := by
      simp only [map_eq_ok]
      constructor
      · rintro ⟨e, v, hv, -⟩
        exact ⟨v, hv⟩
      · rintro ⟨v, hv⟩
        exact ⟨_, v, hv, rfl⟩
    simp only [hmap, exists_value_eq_ok, he, Option.some.injEq, exists_eq_left']

theorem exists_convert_eq_ok (he : ∀ id, id ∈ emitted ↔ id ∈ before) :
    (∃ attributes, rule.convert r emitted = .ok attributes) ↔
      ∀ s ∈ rule.substitutions, rule.Admits before r s := by
  have hconvert : (∃ attributes, rule.convert r emitted = .ok attributes) ↔
      ∃ substituted, rule.substitutions.mapM (rule.substitute r emitted) = .ok substituted := by
    simp only [convert, bind_eq_ok]
    constructor
    · rintro ⟨attributes, substituted, hs, -⟩
      exact ⟨substituted, hs⟩
    · rintro ⟨substituted, hs⟩
      exact ⟨_, substituted, hs, rfl⟩
  rw [hconvert, exists_mapM_eq_ok]
  exact forall₂_congr fun s _ ↦ exists_substitute_eq_ok he

end Rule

namespace Walk

variable {set : RuleSet} {w w' : Walk} {before : List String} {r : Resource} {p : Provider}

/-- The walk has come past the resources with these ids and no others. -/
structure Past (set : RuleSet) (before : List String) (w : Walk) : Prop where
  emitted : ∀ id, id ∈ w.emitted ↔ id ∈ before
  owners : ∀ target, target ∈ w.owners ↔ target ∈ before.map set.identifier

structure Mappable (set : RuleSet) (before : List String) (r : Resource) : Prop where
  fresh : set.identifier r.id ∉ before.map set.identifier
  dependsOn : ∀ dep ∈ r.dependsOn, dep ∈ before
  rule : ∃ rule, set.rule? r.kind = some rule ∧ ∀ s ∈ rule.substitutions, rule.Admits before r s

theorem past_start (set : RuleSet) : Past set [] {} where
  emitted id := by simp
  owners target := by simp

theorem exists_dependencies_eq_ok {emitted : TextMap String} :
    (∃ dependsOn, dependencies r emitted = .ok dependsOn) ↔ ∀ dep ∈ r.dependsOn, dep ∈ emitted := by
  rw [dependencies, exists_mapM_eq_ok]
  simp only [Std.ExtTreeSet.mem_toList]
  refine forall₂_congr fun dep _ ↦ ?_
  rw [Std.ExtTreeMap.mem_iff_isSome_getElem?]
  cases emitted[dep]? <;> simp

theorem Past.step (hw : Past set before w) (h : w.visit set r = .ok w') :
    Past set (before ++ [r.id]) w' := by
  obtain ⟨rule, dependsOn, attributes, -, -, -, -, rfl⟩ := visit_eq_ok h
  constructor
  · intro id
    rw [Std.ExtTreeMap.mem_insert, Std.LawfulEqOrd.compare_eq_iff_eq, hw.emitted, List.mem_append,
      List.mem_singleton, or_comm, eq_comm]
  · intro target
    rw [Std.ExtTreeMap.mem_insert, Std.LawfulEqOrd.compare_eq_iff_eq, hw.owners, List.map_append,
      List.mem_append, List.map_singleton, List.mem_singleton, or_comm, eq_comm]

theorem Past.exists_visit_eq_ok (hw : Past set before w) :
    (∃ w', w.visit set r = .ok w') ↔ Mappable set before r := by
  constructor
  · rintro ⟨w', h⟩
    obtain ⟨rule, dependsOn, attributes, hrule, hfresh, hd, ha, -⟩ := visit_eq_ok h
    constructor
    · rw [← hw.owners, Std.ExtTreeMap.mem_iff_isSome_getElem?, hfresh]
      simp
    · simpa only [hw.emitted] using exists_dependencies_eq_ok.1 ⟨dependsOn, hd⟩
    · exact ⟨rule, hrule, (Rule.exists_convert_eq_ok hw.emitted).1 ⟨attributes, ha⟩⟩
  · rintro ⟨hfresh, hd, rule, hrule, hs⟩
    have hfresh : w.owners[set.identifier r.id]? = none := by
      rw [← hw.owners] at hfresh
      exact Std.ExtTreeMap.getElem?_eq_none hfresh
    have hemitted : ∀ dep ∈ r.dependsOn, dep ∈ w.emitted :=
      fun dep hdep ↦ (hw.emitted dep).2 (hd dep hdep)
    obtain ⟨dependsOn, hd⟩ := exists_dependencies_eq_ok.2 hemitted
    obtain ⟨attributes, ha⟩ := (Rule.exists_convert_eq_ok hw.emitted).2 hs
    exact ⟨_, visit_of hrule hfresh hd ha⟩

theorem Past.exists_steps_eq_ok (hw : Past set before w) (rs : List Resource) :
    (∃ w', w.steps p set rs = .ok w') ↔
      ∀ early r late, rs = early ++ r :: late →
        Mappable set (before ++ early.map Resource.id) r := by
  induction rs generalizing w before with
  | nil => simp [steps]
  | cons r rs ih =>
    rw [forall_split_cons, List.map_nil, List.append_nil, ← hw.exists_visit_eq_ok, steps]
    cases hv : w.visit set r with
    | error e => simp
    | ok w₁ => simpa using ih (hw.step hv)

end Walk

variable {g : ResourceGraph} {registry : Registry} {p : Provider} {v : Version}

/-- On an accepted graph a target succeeds when the identifiers of the resources are distinct and
each resource has a rule whose substitutions can be made. -/
theorem exists_walkTarget_eq_ok (hg : g.Accepted) :
    (∃ artifacts, walkTarget g registry p v = .ok artifacts) ↔
      ∃ set, registry.ruleSet p v = .ok set ∧ (g.ids.map set.identifier).Nodup ∧
        ∀ early r late, g.resources = early ++ r :: late →
          ∃ rule, set.rule? r.kind = some rule ∧
            ∀ s ∈ rule.substitutions, rule.Admits (early.map Resource.id) r s := by
  unfold walkTarget
  cases registry.ruleSet p v with
  | error e => simp
  | ok set =>
    have hsteps : (∃ artifacts, (Walk.steps p set {} g.resources).map
        (fun w ↦ w.artifacts.reverse) = .ok artifacts) ↔
          ∃ w, Walk.steps p set {} g.resources = .ok w := by
      simp only [map_eq_ok]
      exact ⟨fun ⟨_, w, hw, _⟩ ↦ ⟨w, hw⟩, fun ⟨w, hw⟩ ↦ ⟨_, w, hw, rfl⟩⟩
    have hids : (g.ids.map set.identifier).Nodup ↔ ∀ early r late,
        g.resources = early ++ r :: late →
          set.identifier r.id ∉ (early.map Resource.id).map set.identifier := by
      rw [ResourceGraph.ids, List.map_map, nodup_map_iff_forall_split]
      simp only [List.map_map, Function.comp_apply]
    simp only [hsteps, (Walk.past_start set).exists_steps_eq_ok, List.nil_append,
      Except.ok.injEq, exists_eq_left', hids]
    constructor
    · intro h
      exact ⟨fun early r late he ↦ (h early r late he).fresh,
        fun early r late he ↦ (h early r late he).rule⟩
    · rintro ⟨hfresh, hrule⟩ early r late he
      exact ⟨hfresh early r late he, (hg.ordered he).1, hrule early r late he⟩

end Multicloud
