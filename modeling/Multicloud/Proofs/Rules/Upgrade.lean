import Multicloud.Proofs.Artifact.Walk
import Multicloud.Proofs.Hcl.Determined
import Multicloud.Proofs.Rules.Supported

namespace Multicloud

section Simulation

variable {R : Artifact → Artifact → Prop} {set set' : RuleSet} {w w' w₁ : Walk} {r : Resource}
  {p p' : Provider}

/-- What one set makes of a resource the other makes as well, up to a relation. -/
structure RuleSet.Simulates (R : Artifact → Artifact → Prop) (set set' : RuleSet) : Prop where
  idStart : set'.idStart = set.idStart
  convert : ∀ (r : Resource) (emitted : TextMap String) (rule : Rule)
    (attributes : List (String × Hcl.Value)) (dependsOn : List String),
    set.rule? r.kind = some rule → rule.convert r emitted = .ok attributes →
    ∃ rule' attributes', set'.rule? r.kind = some rule' ∧ rule'.convert r emitted = .ok attributes' ∧
      R (Walk.artifact set rule r attributes dependsOn)
        (Walk.artifact set' rule' r attributes' dependsOn)

theorem RuleSet.Simulates.identifier (h : Simulates R set set') (id : String) :
    set'.identifier id = set.identifier id := by
  rw [RuleSet.identifier, RuleSet.identifier, h.idStart]

namespace Walk

/-- Two walks have come to the same resource with the same tables. -/
structure Beside (R : Artifact → Artifact → Prop) (w w' : Walk) : Prop where
  emitted : w'.emitted = w.emitted
  owners : w'.owners = w.owners
  artifacts : List.Forall₂ R w.artifacts w'.artifacts

theorem Beside.step (hset : set.Simulates R set') (hw : Beside R w w')
    (h : w.visit set r = .ok w₁) : ∃ w₁', w'.visit set' r = .ok w₁' ∧ Beside R w₁ w₁' := by
  obtain ⟨rule, dependsOn, attributes, hrule, hfresh, hdependsOn, hconvert, rfl⟩ := visit_eq_ok h
  obtain ⟨rule', attributes', hrule', hconvert', hR⟩ :=
    hset.convert r w.emitted rule attributes dependsOn hrule hconvert
  rw [← hset.identifier, ← hw.owners] at hfresh
  rw [← hw.emitted] at hdependsOn hconvert'
  refine ⟨_, visit_of hrule' hfresh hdependsOn hconvert', ?_⟩
  constructor
  · rw [hset.identifier, hw.emitted]
  · rw [hset.identifier, hw.owners]
  · exact .cons hR hw.artifacts

theorem Beside.run {rs : List Resource} (p' : Provider) (hset : set.Simulates R set')
    (hw : Beside R w w') (h : w.steps p set rs = .ok w₁) :
    ∃ w₁', w'.steps p' set' rs = .ok w₁' ∧ Beside R w₁ w₁' := by
  induction rs generalizing w w' with
  | nil =>
    cases h
    exact ⟨w', rfl, hw⟩
  | cons r rs ih =>
    rw [steps] at h
    split at h
    · next w₂ hvisit =>
      obtain ⟨w₂', hvisit', hw₂⟩ := hw.step hset hvisit
      rw [steps, hvisit']
      exact ih hw₂ h
    · cases h

end Walk

/-- A target succeeds with the rules of one set if it does with those of another that it simulates. -/
theorem walkTarget_of_simulates {g : ResourceGraph} {registry : Registry} {v v' : Version}
    {artifacts : List Artifact} (hset : registry.ruleSet p v = .ok set)
    (hset' : registry.ruleSet p' v' = .ok set') (hsimulates : set.Simulates R set')
    (hwalk : walkTarget g registry p v = .ok artifacts) :
    ∃ artifacts', walkTarget g registry p' v' = .ok artifacts' ∧
      List.Forall₂ R artifacts artifacts' := by
  have hstart : Walk.Beside R {} {} := ⟨rfl, rfl, .nil⟩
  rw [walkTarget, hset] at hwalk
  obtain ⟨w, hsteps, rfl⟩ := map_eq_ok.1 hwalk
  obtain ⟨w', hsteps', hw⟩ := hstart.run p' hsimulates hsteps
  refine ⟨w'.artifacts.reverse, ?_, List.rel_reverse hw.artifacts⟩
  rw [walkTarget, hset']
  exact map_eq_ok.2 ⟨w', hsteps', rfl⟩

end Simulation

namespace Rule

variable {rule rule' : Rule} {r : Resource} {emitted : TextMap String}

/-- The rules differ at most in the table of machines, which neither looks into. -/
structure Alike (rule rule' : Rule) : Prop where
  provider : rule'.provider = rule.provider
  substitutions : rule'.substitutions = rule.substitutions
  attributes : rule'.attributes = rule.attributes
  performanceClass : rule'.tables.performanceClass = rule.tables.performanceClass
  conversion : ∀ s ∈ rule.substitutions, s.conversion ≠ .instanceClass

theorem Alike.value_eq (h : rule.Alike rule') {s : Substitution} (hs : s ∈ rule.substitutions)
    (p : Property) : rule'.value r emitted s p = rule.value r emitted s p := by
  have hconversion := h.conversion s hs
  unfold value
  cases hc : s.conversion with
  | verbatim => rfl
  | instanceClass => exact absurd hc hconversion
  | performanceClass => simp only [storageTier, h.performanceClass, h.provider]
  | reference => rfl

theorem Alike.convert_eq (h : rule.Alike rule') :
    rule'.convert r emitted = rule.convert r emitted := by
  have hsubstitute : ∀ s ∈ rule.substitutions,
      rule'.substitute r emitted s = rule.substitute r emitted s := by
    intro s hs
    simp only [substitute, h.value_eq hs]
  rw [convert, convert, h.substitutions, h.attributes, mapM_congr hsubstitute]

structure Machine (rule : Rule) (name size : String) (constant : String × Property) : Prop where
  substitutions : rule.substitutions = [Shipped.copy "name" name, Shipped.instanceClass size]
  attributes : rule.attributes = [constant]
  fresh : constant.1 ≠ name ∧ constant.1 ≠ size

theorem Machine.convert_eq_ok_iff {name size : String} {constant : String × Property}
    (h : rule.Machine name size constant) {attributes : List (String × Hcl.Value)} :
    rule.convert r emitted = .ok attributes ↔ ∃ label cls machine,
      r.properties["name"]? = some label ∧ r.properties["instance_class"]? = some cls ∧
        rule.tables.instanceClass[cls.display]? = some machine ∧
        attributes = [(name, .ofProperty label), (size, .str machine),
          (constant.1, .ofProperty constant.2)] := by
  have hname : (name == constant.1) = false := beq_eq_false_iff_ne.2 h.fresh.1.symm
  have hsize : (size == constant.1) = false := beq_eq_false_iff_ne.2 h.fresh.2.symm
  constructor
  · intro hconvert
    obtain ⟨substituted, hs, rfl⟩ := convert_eq_ok hconvert
    rw [h.substitutions] at hs
    obtain ⟨e, rest, hlabel, hrest, rfl⟩ := List.forall₂_cons_left_iff.1 hs
    obtain ⟨e', rest', hcls, hrest', rfl⟩ := List.forall₂_cons_left_iff.1 hrest
    obtain rfl := List.forall₂_nil_left_iff.1 hrest'
    obtain ⟨label, hlabel, hargument, hvalue⟩ := substitute_eq_ok hlabel
    obtain ⟨cls, hcls, hargument', hvalue'⟩ := substitute_eq_ok hcls
    obtain ⟨machine, hmachine, hvalue'⟩ := map_eq_ok.1 hvalue'
    refine ⟨label, cls, machine, hlabel, hcls, instanceType_eq_ok_iff.1 hmachine, ?_⟩
    have he : e = (name, .ofProperty label) := Prod.ext hargument (Except.ok.inj hvalue).symm
    have he' : e' = (size, .str machine) := Prod.ext hargument' hvalue'.symm
    simp [h.attributes, he, he', hname, hsize]
  · rintro ⟨label, cls, machine, hlabel, hcls, hmachine, rfl⟩
    simp [convert, h.substitutions, h.attributes, Shipped.copy, Shipped.instanceClass, substitute,
      hlabel, hcls, value, instanceType_eq_ok_iff.2 hmachine, Except.map, bind, Except.bind, pure,
      Except.pure, hname, hsize]

end Rule

namespace Hcl.Block

variable (b : Block)

theorem exists_render_comment :
    ∃ rest, ∀ c, ({ b with comment := c } : Block).render = "# " ++ c ++ "\n" ++ rest := by
  refine ⟨String.join ((b.lines.drop 1).map (· ++ "\n")), fun c ↦ ?_⟩
  have hlines : ({ b with comment := c } : Block).lines = ("# " ++ c) :: b.lines.drop 1 := by
    rw [lines, lines, header_eq, header_eq]
    rfl
  rw [render, hlines, List.map_cons, String.join_cons]

theorem aligned_machine (label constant : Value) (machine : String) :
    aligned [("name", label), ("instance_type", .str machine), ("monitoring", constant)] =
      ["  name          = " ++ label.render, "  instance_type = " ++ quote machine,
        "  monitoring    = " ++ constant.render] := by
  simp only [aligned, Text.padEnd, Value.render, List.map_cons, List.map_nil, List.foldl_cons,
    List.foldl_nil]
  rfl

theorem exists_render_machine (label constant : Value) :
    ∃ upper middle lower, ∀ c version machine, ({ b with
      comment := c
      version := version
      attributes := [("name", label), ("instance_type", .str machine), ("monitoring", constant)] } :
        Block).render = "# " ++ c ++ "\n" ++ upper ++ "  version = " ++ quote version ++ middle ++
          "  instance_type = " ++ quote machine ++ lower := by
  refine ⟨"module \"" ++ b.name ++ "\" \x7b\n  source  = " ++ quote b.source ++ "\n",
    "\n\n  name          = " ++ label.render ++ "\n",
    "\n  monitoring    = " ++ constant.render ++ "\n" ++
      String.join ((b.dependencyLines ++ ["\x7d"]).map (· ++ "\n")), fun c version machine ↦ ?_⟩
  simp only [render, lines, header_eq, attributeLines, List.isEmpty_cons, aligned_machine]
  simp [dependencyLines, String.join_cons, ← String.toList_inj]

end Hcl.Block

def Artifact.headline (a : Artifact) (v : Version) : String :=
  "# " ++ s!"{a.logicalId} ({a.logicalKind.name}) -> {a.artifactKind} [{a.provider.name} {v.text}]" ++
    "\n"

def Artifact.machineBody (a : Artifact) (v : Version)
    (moduleVersion machine upper middle lower : String) : String :=
  a.headline v ++ upper ++ "  version = " ++ Hcl.quote moduleVersion ++ middle ++
    "  instance_type = " ++ Hcl.quote machine ++ lower

namespace Walk

variable {set set' : RuleSet} {rule rule' : Rule} {r : Resource}
  {attributes attributes' : List (String × Hcl.Value)} {dependsOn : List String}

/-- The sets and the rules differ at most in what shows in a body alone. -/
structure Level (set set' : RuleSet) (rule rule' : Rule) : Prop where
  provider : set'.provider = set.provider
  idStart : set'.idStart = set.idStart
  artifactKind : rule'.artifact = rule.artifact
  moduleSource : rule'.moduleSource = rule.moduleSource

theorem Level.artifact_eq (h : Level set set' rule rule') :
    artifact set' rule' r attributes' dependsOn =
      { artifact set rule r attributes dependsOn with
        body := (artifact set' rule' r attributes' dependsOn).body } := by
  simp only [artifact, RuleSet.identifier, h.provider, h.idStart, h.artifactKind]

theorem Level.headline_eq (h : Level set set' rule rule') :
    (artifact set rule r attributes dependsOn).headline set'.version =
      "# " ++ comment set' rule' r ++ "\n" := by
  simp only [comment, h.provider, h.artifactKind]
  rfl

theorem level_self (set : RuleSet) (rule : Rule) : Level set set rule rule := ⟨rfl, rfl, rfl, rfl⟩

theorem body_artifact (set : RuleSet) (rule : Rule) (r : Resource)
    (attributes : List (String × Hcl.Value)) (dependsOn : List String) :
    (artifact set rule r attributes dependsOn).body =
      (block set rule r attributes dependsOn).render := by
  simp only [artifact]

theorem Level.block_eq (h : Level set set' rule rule')
    (attributes attributes' : List (String × Hcl.Value)) :
    block set' rule' r attributes' dependsOn =
      { block set rule r attributes dependsOn with
        comment := comment set' rule' r
        version := rule'.moduleVersion
        attributes := attributes' } := by
  simp only [block, RuleSet.identifier, h.idStart, h.moduleSource]

theorem Level.exists_body (h : Level set set' rule rule')
    (hversion : rule'.moduleVersion = rule.moduleVersion) :
    ∃ rest, (artifact set rule r attributes dependsOn).body =
        (artifact set rule r attributes dependsOn).headline set.version ++ rest ∧
      (artifact set' rule' r attributes dependsOn).body =
        (artifact set rule r attributes dependsOn).headline set'.version ++ rest := by
  obtain ⟨rest, hrest⟩ := (block set rule r attributes dependsOn).exists_render_comment
  refine ⟨rest, ?_, ?_⟩
  · rw [(level_self set rule).headline_eq, ← hrest, body_artifact,
      (level_self set rule).block_eq attributes]
  · rw [h.headline_eq, ← hrest, body_artifact, h.block_eq attributes]
    simp only [block, hversion]

theorem Level.exists_machineBody (h : Level set set' rule rule') (label constant : Hcl.Value)
    (machine machine' : String) :
    ∃ upper middle lower,
      (artifact set rule r
          [("name", label), ("instance_type", .str machine), ("monitoring", constant)]
          dependsOn).body =
        (artifact set rule r attributes dependsOn).machineBody set.version rule.moduleVersion
          machine upper middle lower ∧
      (artifact set' rule' r
          [("name", label), ("instance_type", .str machine'), ("monitoring", constant)]
          dependsOn).body =
        (artifact set rule r attributes dependsOn).machineBody set'.version rule'.moduleVersion
          machine' upper middle lower := by
  obtain ⟨upper, middle, lower, htext⟩ :=
    (block set rule r attributes dependsOn).exists_render_machine label constant
  refine ⟨upper, middle, lower, ?_, ?_⟩
  · rw [Artifact.machineBody, (level_self set rule).headline_eq, ← htext, body_artifact,
      (level_self set rule).block_eq attributes]
  · rw [Artifact.machineBody, h.headline_eq, ← htext, body_artifact, h.block_eq attributes]

end Walk

namespace Shipped

/-- The later rules change nothing but the body, and there the version of the rules. In the body of
a machine they also change the version of the module and the type, as the tables have it. -/
structure Upgraded (a a' : Artifact) : Prop where
  same : a' = { a with body := a'.body }
  body : a.logicalKind ≠ .computeNode →
    ∃ rest, a.body = a.headline v1 ++ rest ∧ a'.body = a.headline v1_1 ++ rest
  machine : a.logicalKind = .computeNode → ∃ cls machine machine' upper middle lower : String,
    aws1.tables.instanceClass[cls]? = some machine ∧
      aws1_1.tables.instanceClass[cls]? = some machine' ∧
      a.body = a.machineBody v1 "5.6.0" machine upper middle lower ∧
      a'.body = a.machineBody v1_1 "5.7.0" machine' upper middle lower

theorem mem_machines_aws {cls machine : String}
    (h : aws1.tables.instanceClass[cls]? = some machine) :
    ∃ machine', aws1_1.tables.instanceClass[cls]? = some machine' := by
  have hall : ∀ cls ∈ aws1.tables.instanceClass.keys,
      (aws1_1.tables.instanceClass[cls]?).isSome = true := by decide +kernel
  have hmem : cls ∈ aws1.tables.instanceClass := by
    rw [Std.ExtTreeMap.mem_iff_isSome_getElem?, h]
    rfl
  exact Option.isSome_iff_exists.1 (hall cls (Std.ExtTreeMap.mem_keys.2 hmem))

theorem exists_rules_of_ne {k : Kind} (hk : k ≠ .computeNode) :
    ∃ rule rule', aws1.finish.rule? k = some rule ∧ aws1_1.finish.rule? k = some rule' ∧
      Walk.Level aws1.finish aws1_1.finish rule rule' ∧
      rule'.moduleVersion = rule.moduleVersion ∧ rule.Alike rule' := by
  cases k with
  | computeNode => exact absurd rfl hk
  | _ => exact ⟨_, _, rfl, rfl, ⟨rfl, rfl, rfl, rfl⟩, rfl, rfl, rfl, rfl, rfl, by decide⟩

theorem exists_rules_machine :
    ∃ rule rule', aws1.finish.rule? .computeNode = some rule ∧
      aws1_1.finish.rule? .computeNode = some rule' ∧
      Walk.Level aws1.finish aws1_1.finish rule rule' ∧
      rule.moduleVersion = "5.6.0" ∧ rule'.moduleVersion = "5.7.0" ∧
      rule.tables = aws1.tables ∧ rule'.tables = aws1_1.tables ∧
      rule.Machine "name" "instance_type" ("monitoring", .bool true) ∧
      rule'.Machine "name" "instance_type" ("monitoring", .bool true) :=
  ⟨_, _, rfl, rfl, ⟨rfl, rfl, rfl, rfl⟩, rfl, rfl, rfl, rfl, ⟨rfl, rfl, by decide⟩,
    ⟨rfl, rfl, by decide⟩⟩

variable {r : Resource} {emitted : TextMap String} {rule : Rule}
  {attributes : List (String × Hcl.Value)} {dependsOn : List String}

theorem upgraded_of_ne (hk : r.kind ≠ .computeNode) (hrule : aws1.finish.rule? r.kind = some rule)
    (hconvert : rule.convert r emitted = .ok attributes) :
    ∃ rule' attributes', aws1_1.finish.rule? r.kind = some rule' ∧
      rule'.convert r emitted = .ok attributes' ∧
      Upgraded (Walk.artifact aws1.finish rule r attributes dependsOn)
        (Walk.artifact aws1_1.finish rule' r attributes' dependsOn) := by
  obtain ⟨first, rule', hfirst, hrule', hlevel, hversion, halike⟩ := exists_rules_of_ne hk
  obtain rfl : first = rule := Option.some.inj (hfirst.symm.trans hrule)
  refine ⟨rule', attributes, hrule', halike.convert_eq.trans hconvert, hlevel.artifact_eq,
    fun _ ↦ hlevel.exists_body hversion, fun h ↦ absurd h hk⟩

theorem upgraded_machine (hk : r.kind = .computeNode)
    (hrule : aws1.finish.rule? r.kind = some rule)
    (hconvert : rule.convert r emitted = .ok attributes) :
    ∃ rule' attributes', aws1_1.finish.rule? r.kind = some rule' ∧
      rule'.convert r emitted = .ok attributes' ∧
      Upgraded (Walk.artifact aws1.finish rule r attributes dependsOn)
        (Walk.artifact aws1_1.finish rule' r attributes' dependsOn) := by
  obtain ⟨first, rule', hfirst, hrule', hlevel, hversion, hversion', htables, htables', hmachine,
    hmachine'⟩ := exists_rules_machine
  rw [← hk] at hfirst hrule'
  obtain rfl : first = rule := Option.some.inj (hfirst.symm.trans hrule)
  obtain ⟨label, cls, machine, hlabel, hcls, ht, rfl⟩ := hmachine.convert_eq_ok_iff.1 hconvert
  rw [htables] at ht
  obtain ⟨machine', ht'⟩ := mem_machines_aws ht
  have hconvert' : rule'.convert r emitted = .ok _ :=
    hmachine'.convert_eq_ok_iff.2 ⟨label, cls, machine', hlabel, hcls, by rw [htables', ht'], rfl⟩
  obtain ⟨upper, middle, lower, hbody, hbody'⟩ :=
    hlevel.exists_machineBody (.ofProperty label) (.ofProperty (.bool true)) machine machine'
  rw [hversion] at hbody
  rw [hversion'] at hbody'
  exact ⟨rule', _, hrule', hconvert', hlevel.artifact_eq, fun h ↦ absurd hk h, fun _ ↦
    ⟨cls.display, machine, machine', upper, middle, lower, ht, ht', hbody, hbody'⟩⟩

theorem simulates_aws : aws1.finish.Simulates Upgraded aws1_1.finish where
  idStart := rfl
  convert r emitted rule attributes dependsOn hrule hconvert := by
    by_cases hk : r.kind = .computeNode
    · exact upgraded_machine hk hrule hconvert
    · exact upgraded_of_ne hk hrule hconvert

end Shipped

variable {g : ResourceGraph} {artifacts : List Artifact}

/-- Whatever the earlier rules make of a graph, the later ones make as well. -/
theorem walkTarget_upgraded (h : walkTarget g .builtin Shipped.aws Shipped.v1 = .ok artifacts) :
    ∃ artifacts', walkTarget g .builtin Shipped.aws Shipped.v1_1 = .ok artifacts' ∧
      List.Forall₂ Shipped.Upgraded artifacts artifacts' := by
  have hset := Shipped.ruleSet_builtin Shipped.aws1 (.head _)
  have hset' := Shipped.ruleSet_builtin Shipped.aws1_1 (.tail _ (.head _))
  exact walkTarget_of_simulates hset hset' Shipped.simulates_aws h

def redundant : WorkloadSpec where
  name := "w"
  space := "default"
  compute := { nodes := 3, instanceClass := "medium-ha" }
  networking := { topology := .ring, domains := ["a.example"] }
  storage := { persistent := true, performanceClass := "standard" }
  targets := [Shipped.aws]

theorem walkTarget_upgraded_redundant : ∃ g artifacts artifacts',
    ResourceGraph.build redundant = .ok g ∧
      walkTarget g .builtin Shipped.aws Shipped.v1 = .ok artifacts ∧
      walkTarget g .builtin Shipped.aws Shipped.v1_1 = .ok artifacts' ∧
      List.Forall₂ Shipped.Upgraded artifacts artifacts' := by
  have hdomains : ResourceGraph.repeatedDomain? ∅ redundant.networking.domains = none := by
    decide +kernel
  obtain ⟨g, hg, -⟩ := ResourceGraph.exists_of_edges_eq_ok (by decide) hdomains rfl
  have hclasses : redundant.compute.instanceClass ∈ Shipped.aws1.tables.instanceClass ∧
      (redundant.storage.persistent = true →
        redundant.storage.performanceClass ∈ Shipped.aws1.tables.performanceClass) ∧
      (redundant.networking.domains.map (Name.identifier "")).Nodup := by decide +kernel
  obtain ⟨artifacts, hwalk⟩ :=
    (ResourceGraph.exists_walkTarget_full hg (d := Shipped.aws1) (.head _)).2 hclasses
  obtain ⟨artifacts', hwalk', hupgraded⟩ := walkTarget_upgraded hwalk
  exact ⟨g, artifacts, artifacts', hg, hwalk, hwalk', hupgraded⟩

end Multicloud
