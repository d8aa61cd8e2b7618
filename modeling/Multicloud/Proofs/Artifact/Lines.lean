import Multicloud.Proofs.Artifact.Walk
import Multicloud.Proofs.Graph.Built
import Multicloud.Proofs.Hcl.Lines
import Multicloud.Proofs.Registry
import Multicloud.Proofs.Rules.Document
import Multicloud.Proofs.Run.Binding
import Multicloud.Proofs.Workload.Lone

namespace Multicloud

open Hcl (strayBreaks)
open Text (Simple breaks breaks_append breaks_of_simple)

theorem Version.breaks_text (v : Version) : breaks v.text = 0 :=
  List.count_eq_zero.2 (v.not_mem_text rfl (by decide) (by decide))

theorem Name.simple_of_isIdentifierChar {c : Char} (h : isIdentifierChar c = true) :
    Text.isSimpleChar c = true := by
  simp only [isIdentifierChar, Bool.or_eq_true] at h
  simp only [Text.isSimpleChar, Name.isLabelChar, Bool.or_eq_true]
  tauto

theorem Name.isIdentifierChar_of_mem {start : String} (h : isIdentifierStart start.toList = true)
    (id : String) : ∀ c ∈ (identifier start id).toList, isIdentifierChar c = true := by
  have hstart : ∀ c ∈ start.toList, isIdentifierChar c = true := by
    generalize start.toList = s at h
    cases s with
    | nil => exact nofun
    | cons c rest =>
      simp only [isIdentifierStart, Bool.and_eq_true] at h
      refine List.forall_mem_cons.2 ⟨?_, List.all_eq_true.1 h.2⟩
      simp only [isIdentifierChar, Bool.or_eq_true] at h ⊢
      tauto
  intro c hc
  rw [identifier, String.toList_append, String.toList_ofList] at hc
  rcases List.mem_append.1 hc with hc | hc
  · exact hstart c hc
  · obtain ⟨d, -, rfl⟩ := List.mem_map.1 hc
    rw [identifierChar]
    split
    · assumption
    · rfl

theorem Name.simple_identifier {start : String} (h : isIdentifierStart start.toList = true)
    (id : String) : Simple (identifier start id).toList := fun c hc ↦
  simple_of_isIdentifierChar (isIdentifierChar_of_mem h id c hc)

theorem RuleSet.isIdentifierStart_of_ofText {text : String} {set : RuleSet}
    (h : ofText text = .ok set) : Name.isIdentifierStart set.idStart.toList = true := by
  obtain ⟨d, hfault, -, rfl⟩ := of_ofText_eq_ok h
  rw [RuleSetDraft.fault?] at hfault
  split at hfault
  · cases hfault
  · next hstart =>
    change Name.isIdentifierStart d.idStart.toList = true
    simpa using hstart

/-- What a rule brings to a block has no end of a line. -/
structure Rule.Flat (rule : Rule) : Prop where
  artifact : breaks rule.artifact = 0
  moduleSource : breaks rule.moduleSource = 0
  moduleVersion : breaks rule.moduleVersion = 0
  substitution : ∀ s ∈ rule.substitutions, breaks s.argument = 0 ∧ ∀ o ∈ s.output, breaks o = 0
  constant : ∀ a ∈ rule.attributes, breaks a.1 = 0 ∧ breaks a.2.display = 0
  machine : ∀ k v : String, rule.tables.instanceClass[k]? = some v → breaks v = 0
  storage : ∀ k v : String, rule.tables.performanceClass[k]? = some v → breaks v = 0

/-- The texts of a specification that may be any have no end of a line. -/
structure WorkloadSpec.Flat (spec : WorkloadSpec) : Prop where
  machine : breaks spec.compute.instanceClass = 0
  storage : breaks spec.storage.performanceClass = 0

namespace Rule

variable {rule : Rule} {r : Resource} {emitted : TextMap String}
  {attributes : List (String × Hcl.Value)}

theorem Flat.breaks_value (h : rule.Flat) {s : Substitution} {p : Property} {v : Hcl.Value}
    (hp : breaks p.display = 0) (hv : rule.value r emitted s p = .ok v)
    (hexpr : ∀ x, v = .expr x → breaks x = 0) : breaks v.render = 0 := by
  unfold value at hv
  split at hv
  · rw [← Except.ok.inj hv, Hcl.Value.breaks_ofProperty]
    exact hp
  · obtain ⟨t, ht, rfl⟩ := map_eq_ok.1 hv
    exact (Hcl.breaks_quote t).trans (h.machine _ t (instanceType_eq_ok_iff.1 ht))
  · obtain ⟨t, ht, rfl⟩ := map_eq_ok.1 hv
    exact (Hcl.breaks_quote t).trans (h.storage _ t (storageTier_eq_ok_iff.1 ht))
  · split at hv
    · rw [← Except.ok.inj hv] at hexpr ⊢
      exact hexpr _ rfl
    · cases hv

theorem Flat.strayBreaks_eq_zero (h : rule.Flat)
    (hproperty : ∀ (k : String) p, r.properties[k]? = some p → breaks p.display = 0)
    {before : List Artifact} (hbefore : ∀ a ∈ before, breaks a.targetId = 0)
    (hrefers : rule.Refers r before attributes)
    (hconvert : rule.convert r emitted = .ok attributes) : strayBreaks attributes = 0 := by
  have hexpr : ∀ a ∈ attributes, ∀ x, a.2 = .expr x → breaks x = 0 := by
    rintro ⟨k, v⟩ hmem x rfl
    obtain ⟨s, hs, -, -, a, ha, rfl⟩ := hrefers.expression k x hmem
    have houtput : breaks (s.output.getD "id") = 0 := by
      cases ho : s.output with
      | none => rfl
      | some o => exact (h.substitution s hs).2 o ho
    rw [Hcl.moduleOutput, breaks_append, breaks_append, breaks_append, hbefore a ha, houtput]
    rfl
  rw [strayBreaks, List.sum_eq_zero_iff_forall_eq_nat]
  intro n hn
  obtain ⟨⟨k, v⟩, ha, rfl⟩ := List.mem_map.1 hn
  obtain ⟨substituted, hs, hattributes⟩ := convert_eq_ok hconvert
  have hexpr := hexpr _ ha
  rw [hattributes] at ha
  rcases List.mem_append.1 ha with ha | ha
  · obtain ⟨s, hmem, hsubstitute⟩ := exists_of_forall₂_right hs ha
    obtain ⟨p, hp, hargument, hv⟩ := substitute_eq_ok hsubstitute
    rw [hargument, (h.substitution s hmem).1, h.breaks_value (hproperty _ p hp) hv hexpr]
  · obtain ⟨⟨k', p⟩, hconstant, he⟩ := List.mem_map.1 ha
    obtain ⟨rfl, rfl⟩ := Prod.mk.inj he
    obtain ⟨hname, hp⟩ := h.constant _ (List.mem_filter.1 hconstant).1
    rw [hname, Hcl.Value.breaks_ofProperty, hp]

end Rule

section Walk

theorem ResourceGraph.Made.breaks_property {spec : WorkloadSpec} {r : Resource}
    (hv : spec.Valid) (h : Made spec r) (hflat : spec.Flat) (k : String) (p : Property)
    (hp : r.properties[k]? = some p) : breaks p.display = 0 := by
  have hmem : (k, p) ∈ r.properties.toList := Std.ExtTreeMap.mem_toList_iff_getElem?_eq_some.2 hp
  obtain ⟨-, hp | ⟨-, hp⟩ | ⟨-, hp⟩⟩ := h.simple_property hv _ hmem
  · exact breaks_of_simple hp
  · obtain rfl : p = .text spec.compute.instanceClass := hp
    exact hflat.machine
  · obtain rfl : p = .text spec.storage.performanceClass := hp
    exact hflat.storage

variable {set : RuleSet} {rs : List Resource} {as : List Artifact}

theorem Walk.Translates.targetId_eq (h : Walk.Translates set rs as) :
    ∀ a ∈ as, a.targetId = set.identifier a.logicalId := by
  induction h with
  | start => exact nofun
  | next _ ha ih =>
    intro b hb
    rcases List.mem_append.1 hb with hb | hb
    · exact ih b hb
    · rw [List.mem_singleton.1 hb, ha.logicalId]
      exact ha.targetId

theorem breaks_comment {spec : WorkloadSpec} {r : Resource} (hv : spec.Valid)
    (h : ResourceGraph.Made spec r) (set : RuleSet) (rule : Rule) :
    breaks (Walk.comment set rule r) = breaks rule.artifact := by
  have hkind (k : Kind) : breaks k.name = 0 := by cases k <;> rfl
  have hname := breaks_of_simple set.provider.simple_name
  have hid := breaks_of_simple (h.simple_id hv)
  have hversion := set.version.breaks_text
  simp only [Walk.comment, toString, breaks_append, hkind, hname, hid, hversion]
  simp [breaks]

/-- The body of an artifact has the lines of a block with its attributes and its dependencies, and
one more for each end of a line in what the rule brings. Nothing else brings one in: the ids and the
names of modules have none, and neither have the properties of a resource, except for the classes of
machines and of storage. -/
theorem walkTarget_lines {bytes : ByteArray} {spec : WorkloadSpec} {g : ResourceGraph}
    {text : String} {set : RuleSet} {registry : Registry} {p : Provider} {v : Version}
    {artifacts : List Artifact} (hspec : WorkloadSpec.ofBytes bytes = .ok spec)
    (hg : ResourceGraph.build spec = .ok g) (hset : RuleSet.ofText text = .ok set)
    (hregistry : registry.ruleSet p v = .ok set) (hwalk : walkTarget g registry p v = .ok artifacts)
    {i : Nat} {r : Resource} (hr : g.resources[i]? = some r) :
    ∃ a rule emitted attributes, artifacts[i]? = some a ∧ set.rule? r.kind = some rule ∧
      rule.convert r emitted = .ok attributes ∧ (∃ s, a.body = s ++ "\n") ∧
      breaks a.body = Hcl.Block.lineCount attributes.length r.dependsOn.size +
        (breaks rule.artifact + breaks rule.moduleSource + breaks rule.moduleVersion +
          strayBreaks attributes) ∧
      (rule.Flat → spec.Flat →
        breaks a.body = Hcl.Block.lineCount attributes.length r.dependsOn.size ∧
          Name.splitAt '\n' a.body.toList =
            (Walk.block set rule r attributes a.dependsOn).lines.map String.toList ++ [[]]) := by
  obtain ⟨set', hset', htranslates⟩ := translates_of_walkTarget hwalk
  obtain rfl : set = set' := Except.ok.inj (hregistry.symm.trans hset')
  obtain ⟨a, ha, htranslated⟩ := htranslates.translated hr
  obtain ⟨rule, emitted, attributes, hrule, hconvert, hbody, hrefers⟩ := htranslated.attributes
  have hv := WorkloadSpec.valid_of_ofBytes hspec
  obtain ⟨-, -, hmade, -⟩ := ResourceGraph.of_build_eq_ok hg
  have hmade := hmade r (List.mem_of_getElem? hr)
  have hidentifier (id : String) : breaks (set.identifier id) = 0 :=
    breaks_of_simple (Name.simple_identifier (RuleSet.isIdentifierStart_of_ofText hset) id)
  have hdependencies : (a.dependsOn.map breaks).sum = 0 := by
    rw [htranslated.dependsOn, List.map_map, List.sum_eq_zero_iff_forall_eq_nat]
    intro n hn
    obtain ⟨id, -, rfl⟩ := List.mem_map.1 hn
    exact hidentifier id
  have hlength : a.dependsOn.length = r.dependsOn.size := by
    rw [htranslated.dependsOn, List.length_map, Std.ExtTreeSet.length_toList]
  have hsum : (((Walk.block set rule r attributes a.dependsOn).lines).map breaks).sum =
      breaks rule.artifact + breaks rule.moduleSource + breaks rule.moduleVersion +
        strayBreaks attributes := by
    rw [Hcl.Block.sum_breaks_lines]
    simp only [Walk.block, breaks_comment hv hmade, hidentifier, hdependencies]
    omega
  have hcount : breaks a.body = Hcl.Block.lineCount attributes.length r.dependsOn.size +
      (breaks rule.artifact + breaks rule.moduleSource + breaks rule.moduleVersion +
        strayBreaks attributes) := by
    rw [hbody, Hcl.Block.breaks_render, hsum, ← hlength]
    rfl
  refine ⟨a, rule, emitted, attributes, ha, hrule, hconvert, ?_, hcount, fun hflat hplain ↦ ?_⟩
  · rw [hbody]
    exact Hcl.Block.exists_render_eq _
  · have hbefore : ∀ b ∈ artifacts.take i, breaks b.targetId = 0 := by
      intro b hb
      rw [htranslates.targetId_eq b (List.mem_of_mem_take hb)]
      exact hidentifier b.logicalId
    have hstray := hflat.strayBreaks_eq_zero (hmade.breaks_property hv hplain) hbefore hrefers
      hconvert
    rw [hflat.artifact, hflat.moduleSource, hflat.moduleVersion, hstray] at hsum hcount
    refine ⟨hcount, ?_⟩
    rw [hbody]
    exact Hcl.Block.splitAt_render _ hsum

end Walk

section Greeting

def greetingText : String :=
  "provider: acme\nversion: \"2\"\nrules:\n  compute_node:\n    artifact: vm\n    module: acme/vm\n" ++
  "    module_version: \"1\"\n    attributes: \x7bmotd: \"one\\ntwo\"\x7d\n"

def acme : Provider := ⟨"acme", by decide⟩

def acmeVersion : Version := ⟨"2", [2], by decide⟩

def greetingRule : Rule where
  kind := .computeNode
  provider := acme
  version := acmeVersion
  artifact := "vm"
  moduleSource := "acme/vm"
  moduleVersion := "1"
  substitutions := []
  attributes := [("motd", .text "one\ntwo")]
  tables := {}

def greetingBody : String :=
  "# compute-0 (compute_node) -> vm [acme 2]\nmodule \"compute_0\" \x7b\n  source  = \"acme/vm\"\n" ++
  "  version = \"1\"\n\n  motd = \"one\ntwo\"\n\x7d\n"

theorem exists_greeting : ∃ set registry artifacts, RuleSet.ofText greetingText = .ok set ∧
    registry.ruleSet acme acmeVersion = .ok set ∧ set.rule? .computeNode = some greetingRule ∧
    walkTarget Pipeline.loneGraph registry acme acmeVersion = .ok artifacts ∧
    artifacts.map Artifact.body = [greetingBody] := by
  have h : ((RuleSet.ofText greetingText).toOption.bind fun set ↦
      (Registry.empty.register set).toOption.map fun registry ↦
        (set.provider, set.version, set.rule? .computeNode,
          (walkTarget Pipeline.loneGraph registry acme acmeVersion).map (·.map Artifact.body))) =
      some (acme, acmeVersion, some greetingRule, .ok [greetingBody]) := by
    rw [RuleSet.ofText, show greetingText.toList = _ from RuleSet.toList_ofList_append _ _]
    decide +kernel
  obtain ⟨set, hset, h⟩ := Option.bind_eq_some_iff.1 h
  obtain ⟨registry, hregister, h⟩ := Option.map_eq_some_iff.1 h
  obtain ⟨hprovider, h⟩ := Prod.mk.inj h
  obtain ⟨hversion, h⟩ := Prod.mk.inj h
  obtain ⟨hrule, hwalk⟩ := Prod.mk.inj h
  obtain ⟨artifacts, hwalk, hbodies⟩ := map_eq_ok.1 hwalk
  have hfound : registry.ruleSet acme acmeVersion = .ok set := by
    rw [← hprovider, ← hversion]
    exact Registry.ruleSet_of_register (toOption_eq_some.1 hregister)
  exact ⟨set, registry, artifacts, toOption_eq_some.1 hset, hfound, hrule, hwalk, hbodies⟩

theorem convert_greeting (r : Resource) (emitted : TextMap String) :
    greetingRule.convert r emitted = .ok [("motd", .str "one\ntwo")] := rfl

theorem walkTarget_lines_greeting : ∃ set registry artifacts a,
    RuleSet.ofText greetingText = .ok set ∧ registry.ruleSet acme acmeVersion = .ok set ∧
      walkTarget Pipeline.loneGraph registry acme acmeVersion = .ok artifacts ∧
      artifacts[0]? = some a ∧ breaks a.body = Hcl.Block.lineCount 1 0 + 1 := by
  obtain ⟨set, registry, artifacts, hset, hregistry, hrule, hwalk, -⟩ := exists_greeting
  obtain ⟨a, rule, emitted, attributes, ha, hrule', hconvert, -, hbreaks, -⟩ :=
    walkTarget_lines Pipeline.ofBytes_loneDocument Pipeline.build_lone hset hregistry hwalk
      (i := 0) (r := ResourceGraph.computeNode Pipeline.lone 0) rfl
  obtain rfl : greetingRule = rule := Option.some.inj (hrule.symm.trans hrule')
  obtain rfl := Except.ok.inj ((convert_greeting _ emitted).symm.trans hconvert)
  exact ⟨set, registry, artifacts, a, hset, hregistry, hwalk, ha, hbreaks⟩

/-- The end of a line in a constant comes out as it is. -/
theorem not_walkTarget_lines : ¬ ∀ (bytes : ByteArray) (spec : WorkloadSpec) (g : ResourceGraph)
    (text : String) (set : RuleSet) (registry : Registry) (p : Provider) (v : Version)
    (artifacts : List Artifact), WorkloadSpec.ofBytes bytes = .ok spec →
    ResourceGraph.build spec = .ok g → RuleSet.ofText text = .ok set →
    registry.ruleSet p v = .ok set → walkTarget g registry p v = .ok artifacts →
    ∀ (i : Nat) (r : Resource) (a : Artifact), g.resources[i]? = some r → artifacts[i]? = some a →
    ∃ rule emitted attributes, set.rule? r.kind = some rule ∧
      rule.convert r emitted = .ok attributes ∧
      breaks a.body = Hcl.Block.lineCount attributes.length r.dependsOn.size := by
  intro hall
  obtain ⟨set, registry, artifacts, hset, hregistry, hrule, hwalk, hbodies⟩ := exists_greeting
  obtain ⟨a, rfl, hbody⟩ := List.map_eq_singleton_iff.1 hbodies
  obtain ⟨rule, emitted, attributes, hrule', hconvert, hbreaks⟩ :=
    hall _ _ _ _ set registry _ _ _ Pipeline.ofBytes_loneDocument Pipeline.build_lone hset
      hregistry hwalk 0 (ResourceGraph.computeNode Pipeline.lone 0) a rfl rfl
  obtain rfl : greetingRule = rule := Option.some.inj (hrule.symm.trans hrule')
  obtain rfl := Except.ok.inj ((convert_greeting _ emitted).symm.trans hconvert)
  rw [hbody] at hbreaks
  exact absurd hbreaks (by decide +kernel)

end Greeting

end Multicloud
