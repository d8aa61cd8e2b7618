import Multicloud.Proofs.Artifact.Walk
import Multicloud.Proofs.Rules.Document

namespace Multicloud

namespace Hcl.Block

/-- What a block sets itself. -/
def own : List String := ["source", "version", "depends_on"]

def arguments (b : Block) : List String := own ++ b.attributes.map Prod.fst

end Hcl.Block

namespace Rule

variable {rule : Rule} {r : Resource} {emitted : TextMap String}
  {attributes : List (String × Hcl.Value)}

def substituted (rule : Rule) : List String := rule.substitutions.map Substitution.argument

def constants (rule : Rule) : List String := rule.attributes.map Prod.fst

theorem map_fst_of_substitute {substitutions : List Substitution}
    {substituted : List (String × Hcl.Value)}
    (h : List.Forall₂ (fun s e ↦ rule.substitute r emitted s = .ok e) substitutions substituted) :
    substituted.map Prod.fst = substitutions.map Substitution.argument := by
  induction h with
  | nil => rfl
  | cons hs _ ih =>
    obtain ⟨p, -, hname, -⟩ := substitute_eq_ok hs
    rw [List.map_cons, List.map_cons, hname, ih]

theorem not_any_eq (substituted : List (String × Hcl.Value)) (k : String) :
    (!substituted.any fun b ↦ b.1 == k) = decide (k ∉ substituted.map Prod.fst) := by
  rw [Bool.eq_iff_iff, Bool.not_eq_true', List.any_eq_false, decide_eq_true_eq, List.mem_map]
  constructor
  · rintro h ⟨b, hb, rfl⟩
    exact h b hb (beq_self_eq_true _)
  · intro h b hb he
    exact h ⟨b, hb, beq_iff_eq.1 he⟩

theorem map_fst_convert (h : rule.convert r emitted = .ok attributes) :
    attributes.map Prod.fst =
      rule.substituted ++ rule.constants.filter fun k ↦ k ∉ rule.substituted := by
  obtain ⟨substituted, hs, rfl⟩ := convert_eq_ok h
  have hargument : substituted.map Prod.fst = rule.substituted := map_fst_of_substitute hs
  simp only [not_any_eq]
  rw [List.map_append, hargument, constants, List.filter_map, List.map_map]
  rfl

/-- The names in a rule are those of different arguments, and none that a block sets itself. A
constant may have the name of a substitution. -/
structure Apart (rule : Rule) : Prop where
  nodup : rule.substituted.Nodup
  not_mem : ∀ k ∈ Hcl.Block.own, k ∉ rule.substituted ∧ k ∉ rule.constants

theorem nodup_own_append_iff (hc : rule.constants.Nodup) :
    (Hcl.Block.own ++ (rule.substituted ++ rule.constants.filter fun k ↦ k ∉ rule.substituted)).Nodup
      ↔ rule.Apart := by
  have hown : Hcl.Block.own.Nodup := by decide
  rw [List.nodup_append, List.nodup_append]
  constructor
  · intro ⟨_, ⟨hs, _, _⟩, hown⟩
    refine ⟨hs, fun k hk ↦ ?_⟩
    have hsub : k ∉ rule.substituted :=
      fun hmem ↦ hown k hk k (List.mem_append_left _ hmem) rfl
    refine ⟨hsub, fun hmem ↦ hown k hk k (List.mem_append_right _ ?_) rfl⟩
    exact List.mem_filter.2 ⟨hmem, by simpa using hsub⟩
  · intro h
    refine ⟨hown, ⟨h.nodup, hc.filter _, fun k hk k' hk' he ↦ ?_⟩, fun k hk k' hk' he ↦ ?_⟩
    · rw [← he] at hk'
      exact absurd hk (by simpa using (List.mem_filter.1 hk').2)
    · obtain ⟨hsub, hconst⟩ := h.not_mem k hk
      rw [← he] at hk'
      rcases List.mem_append.1 hk' with hk' | hk'
      · exact hsub hk'
      · exact hconst (List.mem_filter.1 hk').1

end Rule

namespace RuleSet

variable {text : String} {set : RuleSet} {k : Kind} {rule : Rule} {r : Resource}
  {emitted : TextMap String} {attributes : List (String × Hcl.Value)}

theorem nodup_constants (h : ofText text = .ok set) (hrule : set.rule? k = some rule) :
    rule.constants.Nodup := by
  obtain ⟨d, -, hdistinct, rfl⟩ := of_ofText_eq_ok h
  obtain ⟨draft, hdraft, rfl⟩ := Option.map_eq_some_iff.1 hrule
  obtain ⟨before, after, hrules, -⟩ := List.lookup_eq_some_iff.1 hdraft
  have hmem : (k, draft) ∈ d.rules := by
    rw [← List.mem_reverse, hrules]
    simp
  exact hdistinct _ hmem

/-- A block sets each argument once exactly if the rule names different ones, other than those of
every block. That is seen neither when the rule set is read nor when a resource is converted. -/
theorem arguments_nodup_iff (h : ofText text = .ok set) (hrule : set.rule? k = some rule)
    (hconvert : rule.convert r emitted = .ok attributes) (dependsOn : List String) :
    (Walk.block set rule r attributes dependsOn).arguments.Nodup ↔ rule.Apart := by
  rw [Hcl.Block.arguments, Walk.block, Rule.map_fst_convert hconvert]
  exact Rule.nodup_own_append_iff (nodup_constants h hrule)

section Doubled

def doubledText : String :=
  "provider: acme\nversion: \"1\"\nrules:\n  compute_node:\n    artifact: vm\n    module: acme/vm\n" ++
  "    module_version: \"1\"\n    substitutions:\n      - \x7bproperty: name, attribute: label\x7d\n" ++
  "      - \x7bproperty: index, attribute: label\x7d\n"

def doubled : List Substitution :=
  [{ property := "name", argument := "label" }, { property := "index", argument := "label" }]

def node : Resource where
  id := "compute-0"
  kind := .computeNode
  properties := .ofList [("name", .text "web-0"), ("index", .int 0)] compare
  dependsOn := ∅

theorem exists_doubled : ∃ set rule, ofText doubledText = .ok set ∧
    set.rule? .computeNode = some rule ∧ rule.substitutions = doubled ∧ rule.attributes = [] := by
  have h : ((ofText doubledText).toOption.bind fun set ↦ (set.rule? .computeNode).map fun rule ↦
      (rule.substitutions, rule.attributes)) = some (doubled, []) := by
    have htext (s t u : List Char) :
        (String.ofList s ++ String.ofList t ++ String.ofList u).toList = s ++ t ++ u := by
      rw [String.toList_append, toList_ofList_append, String.toList_ofList]
    rw [ofText, show doubledText.toList = _ from htext _ _ _]
    decide +kernel
  obtain ⟨set, hset, h⟩ := Option.bind_eq_some_iff.1 h
  obtain ⟨rule, hrule, h⟩ := Option.map_eq_some_iff.1 h
  obtain ⟨hsubstitutions, hattributes⟩ := Prod.mk.inj h
  exact ⟨set, rule, toOption_eq_some.1 hset, hrule, hsubstitutions, hattributes⟩

theorem convert_doubled (hs : rule.substitutions = doubled) (ha : rule.attributes = []) :
    rule.convert node ∅ = .ok [("label", .str "web-0"), ("label", .int 0)] := by
  have hname : node.properties["name"]? = some (.text "web-0") := by decide +kernel
  have hindex : node.properties["index"]? = some (.int 0) := by decide +kernel
  simp [Rule.convert, Rule.substitute, Rule.value, hs, ha, doubled, hname, hindex,
    Hcl.Value.ofProperty, Except.map, bind, Except.bind, pure, Except.pure]

theorem arguments_nodup_iff_doubled : ∃ set rule attributes, ofText doubledText = .ok set ∧
    set.rule? .computeNode = some rule ∧ rule.convert node ∅ = .ok attributes ∧
      ¬ (Walk.block set rule node attributes []).arguments.Nodup := by
  obtain ⟨set, rule, hset, hrule, hs, ha⟩ := exists_doubled
  have hconvert := convert_doubled hs ha
  refine ⟨set, rule, _, hset, hrule, hconvert, ?_⟩
  rw [arguments_nodup_iff hset hrule hconvert]
  intro hapart
  have hnodup := hapart.nodup
  rw [Rule.substituted, hs] at hnodup
  exact absurd hnodup (by decide)

/-- Two substitutions for one argument are both written. -/
theorem not_nodup_attributes : ¬ ∀ (text : String) (set : RuleSet) (k : Kind) (rule : Rule)
    (r : Resource) (emitted : TextMap String) (attributes : List (String × Hcl.Value)),
    ofText text = .ok set → set.rule? k = some rule → rule.convert r emitted = .ok attributes →
      (attributes.map Prod.fst).Nodup ∧ ∀ k ∈ Hcl.Block.own, k ∉ attributes.map Prod.fst := by
  intro hall
  obtain ⟨set, rule, hset, hrule, hs, ha⟩ := exists_doubled
  obtain ⟨hnodup, -⟩ := hall _ set _ rule node ∅ _ hset hrule (convert_doubled hs ha)
  exact absurd hnodup (by decide)

end Doubled

end RuleSet

end Multicloud
