import Multicloud.Proofs.Artifact.Files
import Multicloud.Proofs.Hcl.Determined
import Multicloud.Proofs.Rules.Arguments
import Multicloud.Proofs.Text.Bytes

namespace Multicloud

open Hcl (Over)
open Name (isIdentifierChar)
open Text (breaks)

theorem Hcl.Value.plain_of_breaks {letter : Char → Bool} {v : Value} (h : breaks v.render = 0)
    (hexpr : ∀ x, v = .expr x → ∃ target output, Over letter target ∧ Over letter output ∧
      x = moduleOutput target output) : v.Plain letter := by
  cases v with
  | str s => exact .str ((breaks_quote s).symm.trans h)
  | int n => exact .int n
  | bool b => exact .bool b
  | list items =>
    refine .list fun item hitem ↦ ?_
    rw [breaks_render_list] at h
    exact List.sum_eq_zero_iff_forall_eq_nat.1 h _ (List.mem_map_of_mem hitem)
  | expr x =>
    obtain ⟨target, output, htarget, houtput, rfl⟩ := hexpr x rfl
    exact .output htarget houtput

theorem Text.breaks_of_bytes {s : String} (h : 10 ∉ bytes s) : breaks s = 0 := by
  refine List.count_eq_zero.2 fun hmem ↦ h ?_
  rw [bytes_eq]
  exact List.mem_flatMap.2 ⟨'\n', hmem, by decide⟩

namespace Rule

/-- The names that a rule brings to a block. -/
def words (rule : Rule) : List String :=
  rule.substituted ++ rule.constants ++ rule.substitutions.map fun s ↦ s.output.getD "id"

/-- The other texts of a rule, with the classes that it knows. -/
def texts (rule : Rule) : List String :=
  let classes := rule.tables.instanceClass.toList ++ rule.tables.performanceClass.toList
  [rule.artifact, rule.moduleSource, rule.moduleVersion] ++
    rule.attributes.map (fun a ↦ a.2.display) ++ classes.map Prod.fst ++ classes.map Prod.snd

structure Legible (rule : Rule) : Prop where
  word : ∀ w ∈ rule.words, Over isIdentifierChar w
  text : ∀ s ∈ rule.texts, breaks s = 0

variable {rule : Rule} {r : Resource} {emitted : TextMap String}
  {attributes : List (String × Hcl.Value)}

theorem Legible.argument (h : rule.Legible) {k : String}
    (hk : k ∈ rule.substituted ++ rule.constants) : Over isIdentifierChar k :=
  h.word k (List.mem_append_left _ hk)

theorem Legible.output (h : rule.Legible) {s : Substitution} (hs : s ∈ rule.substitutions) :
    Over isIdentifierChar (s.output.getD "id") :=
  h.word _ (List.mem_append_right _ (List.mem_map_of_mem hs))

theorem Legible.class (h : rule.Legible) {k v : String}
    (hk : (k, v) ∈ rule.tables.instanceClass.toList ++ rule.tables.performanceClass.toList) :
    breaks k = 0 ∧ breaks v = 0 := by
  constructor
  · exact h.text k (List.mem_append_left _ (List.mem_append_right _ (List.mem_map_of_mem hk)))
  · exact h.text v (List.mem_append_right _ (List.mem_map_of_mem hk))

theorem Legible.machine (h : rule.Legible) {k v : String}
    (hk : rule.tables.instanceClass[k]? = some v) : breaks k = 0 ∧ breaks v = 0 :=
  h.class (List.mem_append_left _ (Std.ExtTreeMap.mem_toList_iff_getElem?_eq_some.2 hk))

theorem Legible.storage (h : rule.Legible) {k v : String}
    (hk : rule.tables.performanceClass[k]? = some v) : breaks k = 0 ∧ breaks v = 0 :=
  h.class (List.mem_append_right _ (Std.ExtTreeMap.mem_toList_iff_getElem?_eq_some.2 hk))

theorem Legible.flat (h : rule.Legible) : rule.Flat where
  artifact := h.text _ (by simp [texts])
  moduleSource := h.text _ (by simp [texts])
  moduleVersion := h.text _ (by simp [texts])
  substitution s hs := by
    have hargument : s.argument ∈ rule.substituted := List.mem_map_of_mem hs
    have houtput := h.output hs
    refine ⟨(h.argument (List.mem_append_left _ hargument)).breaks_eq_zero rfl, fun o ho ↦ ?_⟩
    rw [Option.mem_def.1 ho] at houtput
    exact houtput.breaks_eq_zero rfl
  constant a ha := by
    have hname : a.1 ∈ rule.constants := List.mem_map_of_mem ha
    have hvalue : a.2.display ∈ rule.attributes.map fun a ↦ a.2.display := List.mem_map_of_mem ha
    refine ⟨(h.argument (List.mem_append_right _ hname)).breaks_eq_zero rfl, h.text _ ?_⟩
    exact List.mem_append_left _ (List.mem_append_left _ (List.mem_append_right _ hvalue))
  machine _ _ hk := (h.machine hk).2
  storage _ _ hk := (h.storage hk).2

theorem Legible.breaks_property {spec : WorkloadSpec} (h : rule.Legible) (hguards : rule.Guards)
    (hv : spec.Valid) (hmade : ResourceGraph.Made spec r) (hkind : rule.kind = r.kind)
    (hconvert : rule.convert r emitted = .ok attributes) (k : String) (p : Property)
    (hp : r.properties[k]? = some p) : breaks p.display = 0 := by
  have hmem : (k, p) ∈ r.properties.toList := Std.ExtTreeMap.mem_toList_iff_getElem?_eq_some.2 hp
  obtain ⟨-, hp | ⟨hk, hp⟩ | ⟨hk, hp⟩⟩ := hmade.simple_property hv _ hmem
  · exact Text.breaks_of_simple hp
  · obtain ⟨s, hs, hproperty, hconversion⟩ := hguards.machine (hkind.trans hk)
    obtain ⟨p', hp', hclass, -⟩ := mem_of_convert_eq_ok hconvert hs
    rw [hproperty, hmade.instanceClass hk] at hp'
    obtain rfl := Option.some.inj hp'
    obtain rfl : p = .text spec.compute.instanceClass := hp
    exact (h.machine (Std.ExtTreeMap.getElem?_eq_some_getElem (hclass hconversion))).1
  · obtain ⟨s, hs, hproperty, hconversion⟩ := hguards.storage (hkind.trans hk)
    obtain ⟨p', hp', -, hclass⟩ := mem_of_convert_eq_ok hconvert hs
    rw [hproperty, hmade.performanceClass hk] at hp'
    obtain rfl := Option.some.inj hp'
    obtain rfl : p = .text spec.storage.performanceClass := hp
    exact (h.storage (Std.ExtTreeMap.getElem?_eq_some_getElem (hclass hconversion))).1

theorem Legible.plain (h : rule.Legible)
    (hproperty : ∀ (k : String) p, r.properties[k]? = some p → breaks p.display = 0)
    {before : List Artifact} (hbefore : ∀ a ∈ before, Over isIdentifierChar a.targetId)
    (hrefers : rule.Refers r before attributes)
    (hconvert : rule.convert r emitted = .ok attributes) :
    ∀ a ∈ attributes, Over isIdentifierChar a.1 ∧ a.2.Plain isIdentifierChar := by
  have hstray := h.flat.strayBreaks_eq_zero hproperty
    (fun a ha ↦ (hbefore a ha).breaks_eq_zero rfl) hrefers hconvert
  rw [Hcl.strayBreaks, List.sum_eq_zero_iff_forall_eq_nat] at hstray
  intro a ha
  constructor
  · have hname : a.1 ∈ rule.substituted ++ rule.constants.filter fun k ↦ k ∉ rule.substituted :=
      map_fst_convert hconvert ▸ List.mem_map_of_mem ha
    exact h.argument ((List.filter_sublist.append_left _).subset hname)
  · have hbreaks := hstray _ (List.mem_map_of_mem ha)
    refine Hcl.Value.plain_of_breaks (by omega) fun x hx ↦ ?_
    obtain ⟨s, hs, -, -, b, hb, rfl⟩ := hrefers.expression a.1 x (hx ▸ ha)
    exact ⟨_, _, hbefore b hb, h.output hs, rfl⟩

end Rule

namespace Registry

theorem over_words_drafts : ∀ d ∈ Shipped.drafts, ∀ k ∈ Kind.all,
    (d.finish.rule? k).all fun rule ↦ ∀ w ∈ rule.words, Over isIdentifierChar w := by
  decide +kernel

theorem not_mem_texts_drafts : ∀ d ∈ Shipped.drafts, ∀ k ∈ Kind.all,
    (d.finish.rule? k).all fun rule ↦ ∀ s ∈ rule.texts, 10 ∉ Text.bytes s := by
  decide +kernel

theorem legible_of_builtin {p : Provider} {v : Version} {set : RuleSet}
    (h : builtin.ruleSet p v = .ok set) {k : Kind} {rule : Rule} (hrule : set.rule? k = some rule) :
    rule.Legible := by
  obtain ⟨d, hd, rfl⟩ := exists_draft_of_builtin h
  have hwords := over_words_drafts d hd k k.mem_all
  have htexts := not_mem_texts_drafts d hd k k.mem_all
  rw [hrule, Option.all_some, decide_eq_true_eq] at hwords htexts
  exact ⟨hwords, fun s hs ↦ Text.breaks_of_bytes (htexts s hs)⟩

end Registry

variable {spec : WorkloadSpec} {g : ResourceGraph} {p : Provider} {v : Version}
  {artifacts : List Artifact}

theorem Walk.plain_block {set : RuleSet} {rule : Rule} {r : Resource}
    {attributes : List (String × Hcl.Value)} {dependsOn : List String} (hv : spec.Valid)
    (hmade : ResourceGraph.Made spec r) (hrule : rule.Legible)
    (hidentifier : ∀ id, Over isIdentifierChar (set.identifier id))
    (hattributes : ∀ a ∈ attributes, Over isIdentifierChar a.1 ∧ a.2.Plain isIdentifierChar)
    (hdependsOn : ∀ d ∈ dependsOn, ∃ id, d = set.identifier id) :
    (block set rule r attributes dependsOn).Plain isIdentifierChar where
  comment := (breaks_comment hv hmade set rule).trans hrule.flat.artifact
  name := hidentifier r.id
  source := hrule.flat.moduleSource
  version := hrule.flat.moduleVersion
  key a ha := (hattributes a ha).1
  value a ha := (hattributes a ha).2
  dependsOn d hd := by
    obtain ⟨id, rfl⟩ := hdependsOn d hd
    exact hidentifier id

/-- The shipped rules write plain blocks of what the loader and the builder let through. -/
theorem plainBlock_of_walkTarget {bytes : ByteArray} (hspec : WorkloadSpec.ofBytes bytes = .ok spec)
    (hg : ResourceGraph.build spec = .ok g) (hwalk : walkTarget g .builtin p v = .ok artifacts) :
    ∀ a ∈ artifacts, ∃ set rule r attributes, Registry.builtin.ruleSet p v = .ok set ∧
      set.rule? r.kind = some rule ∧ r ∈ g.resources ∧
      a.body = (Walk.block set rule r attributes a.dependsOn).render ∧
        (Walk.block set rule r attributes a.dependsOn).Plain isIdentifierChar := by
  obtain ⟨set, hset, htranslates⟩ := translates_of_walkTarget hwalk
  have hstart := Registry.Loaded.builtin.isIdentifierStart hset
  have hv := WorkloadSpec.valid_of_ofBytes hspec
  obtain ⟨-, -, hmade, -⟩ := ResourceGraph.of_build_eq_ok hg
  have hidentifier (id : String) : Over isIdentifierChar (set.identifier id) :=
    Name.isIdentifierChar_of_mem hstart id
  intro a ha
  obtain ⟨i, hi⟩ := List.mem_iff_getElem?.1 ha
  obtain ⟨hlt, -⟩ := List.getElem?_eq_some_iff.1 hi
  rw [htranslates.length_eq] at hlt
  obtain ⟨a', ha', htranslated⟩ := htranslates.translated (List.getElem?_eq_getElem hlt)
  obtain rfl : a = a' := Option.some.inj (hi.symm.trans ha')
  obtain ⟨rule, emitted, attributes, hrule, hconvert, hbody, hrefers⟩ := htranslated.attributes
  obtain ⟨hkind, hguards⟩ := Registry.guards_of_builtin hset hrule
  have hlegible := Registry.legible_of_builtin hset hrule
  have hmade := hmade _ (List.getElem_mem hlt)
  have hproperty := hlegible.breaks_property hguards hv hmade hkind hconvert
  have hbefore : ∀ b ∈ artifacts.take i, Over isIdentifierChar b.targetId := by
    intro b hb
    rw [htranslates.targetId_eq b (List.mem_of_mem_take hb)]
    exact hidentifier b.logicalId
  have hattributes := hlegible.plain hproperty hbefore hrefers hconvert
  refine ⟨set, rule, _, attributes, hset, hrule, List.getElem_mem hlt, hbody,
    Walk.plain_block hv hmade hlegible hidentifier hattributes fun d hd ↦ ?_⟩
  rw [htranslated.dependsOn] at hd
  obtain ⟨id, -, rfl⟩ := List.mem_map.1 hd
  exact ⟨id, rfl⟩

/-- A plain block is determined by its text. The bodies of shipped artifacts are texts of plain
blocks. -/
theorem body_determined {letter : Char → Bool} (hblank : letter ' ' = false)
    (hline : letter '\n' = false) :
    (∀ b b' : Hcl.Block, b.Plain letter → b'.Plain letter → b.render = b'.render → b = b') ∧
      ∀ (bytes : ByteArray) (spec : WorkloadSpec) (g : ResourceGraph) (p : Provider) (v : Version)
        (artifacts : List Artifact), WorkloadSpec.ofBytes bytes = .ok spec →
        ResourceGraph.build spec = .ok g → walkTarget g .builtin p v = .ok artifacts →
        ∀ a ∈ artifacts, ∃ set rule r attributes, Registry.builtin.ruleSet p v = .ok set ∧
          set.rule? r.kind = some rule ∧ r ∈ g.resources ∧
          a.body = (Walk.block set rule r attributes a.dependsOn).render ∧
            (Walk.block set rule r attributes a.dependsOn).Plain isIdentifierChar :=
  ⟨fun _ _ hb hb' he ↦ hb.render_inj hb' hblank hline he, fun _ _ _ _ _ _ hspec hg hwalk ↦
    plainBlock_of_walkTarget hspec hg hwalk⟩

theorem body_determined_lone : ∃ artifacts,
    walkTarget Pipeline.loneGraph .builtin Shipped.aws Shipped.v1 = .ok artifacts ∧
      artifacts.map Artifact.targetId = ["compute_0"] ∧
      ∀ a ∈ artifacts, ∃ b : Hcl.Block, b.Plain isIdentifierChar ∧ a.body = b.render ∧
        ∀ b' : Hcl.Block, b'.Plain isIdentifierChar → a.body = b'.render → b = b' := by
  have h : (walkTarget Pipeline.loneGraph .builtin Shipped.aws Shipped.v1).map
      (·.map Artifact.targetId) = .ok ["compute_0"] := by decide +kernel
  obtain ⟨artifacts, hwalk, htargets⟩ := map_eq_ok.1 h
  obtain ⟨hinj, hplain⟩ := @body_determined isIdentifierChar rfl rfl
  refine ⟨artifacts, hwalk, htargets, fun a ha ↦ ?_⟩
  obtain ⟨set, rule, r, attributes, -, -, -, hbody, hblock⟩ :=
    hplain _ _ _ _ _ _ Pipeline.ofBytes_loneDocument Pipeline.build_lone hwalk a ha
  exact ⟨_, hblock, hbody, fun b' hb' he ↦ hinj _ b' hblock hb' (hbody.symm.trans he)⟩

end Multicloud
