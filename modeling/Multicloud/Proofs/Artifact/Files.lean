import Multicloud.Proofs.Artifact.Lines
import Multicloud.Proofs.Disk.Path
import Multicloud.Proofs.Rules.Shipped

namespace Multicloud

namespace Registry

variable {g g' : Registry} {p : Provider} {v : Version} {set : RuleSet}

/-- The registries that come of registering rule sets in which what every identifier begins with can
begin an identifier, as in any that was read. -/
inductive Loaded : Registry → Prop
  | empty : Loaded .empty
  | builtin : Loaded .builtin
  | register {g g' : Registry} {set : RuleSet} (h : Loaded g)
      (hset : Name.isIdentifierStart set.idStart.toList = true) (hr : g.register set = .ok g') :
      Loaded g'

theorem loadText_eq_ok {origin text : String} (h : g.loadText origin text = .ok g') :
    ∃ set, RuleSet.ofText text = .ok set ∧ g.register set = .ok g' := by
  unfold Registry.loadText at h
  split at h
  · cases h
  · next set hset => exact ⟨set, hset, h⟩

theorem Loaded.loadText (h : Loaded g) {origin text : String}
    (hl : g.loadText origin text = .ok g') : Loaded g' := by
  obtain ⟨set, hset, hr⟩ := loadText_eq_ok hl
  exact .register h (RuleSet.isIdentifierStart_of_ofText hset) hr

theorem Loaded.filled (h : Loaded g) : Filled g := by
  induction h with
  | empty => exact .empty
  | builtin => exact filled_builtin
  | register _ _ hr ih => exact .register ih hr

theorem isIdentifierStart_drafts : ∀ d ∈ Shipped.drafts,
    Name.isIdentifierStart d.finish.idStart.toList = true := by decide +kernel

theorem ruleSet_of_register_iff (h : g.register set = .ok g') {set' : RuleSet}
    (hs : g'.ruleSet p v = .ok set') : set' = set ∨ g.ruleSet p v = .ok set' := by
  rw [ruleSet_eq_ok, versions_of_register h] at hs
  rw [ruleSet_eq_ok]
  split at hs
  · rw [Std.ExtTreeMap.getElem?_insert] at hs
    split at hs
    · exact .inl (Option.some.inj hs).symm
    · exact .inr hs
  · exact .inr hs

theorem Loaded.isIdentifierStart (h : Loaded g) (hs : g.ruleSet p v = .ok set) :
    Name.isIdentifierStart set.idStart.toList = true := by
  induction h generalizing set with
  | empty => simp [ruleSet_eq_ok, versions, Registry.empty] at hs
  | builtin =>
    obtain ⟨d, hd, rfl⟩ := exists_draft_of_builtin hs
    exact isIdentifierStart_drafts d hd
  | register _ hset hr ih =>
    rcases ruleSet_of_register_iff hr hs with rfl | hs
    · exact hset
    · exact ih hs

end Registry

namespace Artifact

/-- Artifacts with file names that a directory can hold side by side. -/
structure Plain (artifacts : List Artifact) : Prop where
  isName : ∀ a ∈ artifacts, Path.IsName a.fileName.toList
  nodup : (artifacts.map fileName).Nodup

end Artifact

section Walk

variable {g : ResourceGraph} {registry : Registry} {p : Provider} {v : Version} {set : RuleSet}
  {artifacts : List Artifact}

theorem Walk.fileName_of_steps {w w' : Walk} {rs : List Resource}
    (hw : ∀ a ∈ w.artifacts, a.provider = set.provider ∧ a.fileName = a.targetId ++ ".tf")
    (h : w.steps p set rs = .ok w') :
    ∀ a ∈ w'.artifacts, a.provider = set.provider ∧ a.fileName = a.targetId ++ ".tf" := by
  induction rs generalizing w with
  | nil =>
    cases h
    exact hw
  | cons r rs ih =>
    rw [steps] at h
    split at h
    · next w₁ h₁ =>
      obtain ⟨rule, dependsOn, attributes, -, -, -, -, rfl⟩ := visit_eq_ok h₁
      exact ih (List.forall_mem_cons.2 ⟨⟨rfl, rfl⟩, hw⟩) h
    · cases h

theorem fileName_of_walkTarget (hr : registry.Filled)
    (h : walkTarget g registry p v = .ok artifacts) :
    ∀ a ∈ artifacts, a.provider = p ∧ a.fileName = a.targetId ++ ".tf" := by
  unfold walkTarget at h
  split at h
  · cases h
  · next set hset =>
    obtain ⟨w, hw, rfl⟩ := map_eq_ok.1 h
    obtain ⟨rfl, -⟩ := hr.of_ruleSet_eq_ok hset
    intro a ha
    exact Walk.fileName_of_steps (by simp) hw a (List.mem_reverse.1 ha)

theorem simple_fileName_of_walkTarget (hr : registry.Loaded)
    (h : walkTarget g registry p v = .ok artifacts) :
    ∀ a ∈ artifacts, Text.Simple a.fileName.toList := by
  obtain ⟨set, hset, ht⟩ := translates_of_walkTarget h
  intro a ha
  have hid : Text.Simple a.targetId.toList := by
    rw [ht.targetId_eq a ha]
    exact Name.simple_identifier (hr.isIdentifierStart hset) a.logicalId
  rw [(fileName_of_walkTarget hr.filled h a ha).2, String.toList_append]
  exact hid.append (by decide)

theorem plain_of_walkTarget (hr : registry.Loaded)
    (h : walkTarget g registry p v = .ok artifacts) : Artifact.Plain artifacts := by
  obtain ⟨set, -, ht⟩ := translates_of_walkTarget h
  have hfile := fileName_of_walkTarget hr.filled h
  constructor
  · intro a ha
    refine Path.isName_of_getLast? (c := 'f')
      ((simple_fileName_of_walkTarget hr h a ha).not_mem rfl) ?_ (by decide)
    rw [(hfile a ha).2]
    simp
  · have hmap : artifacts.map Artifact.fileName =
        (artifacts.map Artifact.targetId).map (· ++ ".tf") := by
      rw [List.map_map]
      exact List.map_congr_left fun a ha ↦ (hfile a ha).2
    rw [hmap]
    exact ht.nodup.map fun s t he ↦ (String.append_left_inj _).1 he

end Walk

end Multicloud
