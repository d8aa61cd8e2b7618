import Mathlib.Data.List.Nodup
import Multicloud.Proofs.Yaml.Reading
import Multicloud.Rules.Document

namespace Multicloud

namespace RuleSetDraft

open Yaml (Document Node Gives gives_bind_of gives_pure)

theorem map_fst_put (attributes : List (String × Property)) (name : String) (p : Property) :
    (put attributes name p).map Prod.fst =
      if name ∈ attributes.map Prod.fst then attributes.map Prod.fst
      else attributes.map Prod.fst ++ [name] := by
  induction attributes with
  | nil => rfl
  | cons a rest ih =>
    rw [put]
    by_cases ha : a.1 = name
    · simp [ha]
    · have hne : name ≠ a.1 := fun h ↦ ha h.symm
      rw [if_neg ha, List.map_cons, ih]
      by_cases hmem : name ∈ rest.map Prod.fst
      · simp only [List.map_cons, List.mem_cons, hmem, or_true, if_true]
      · simp only [List.map_cons, List.mem_cons, hmem, hne, or_self, if_false, List.cons_append]

theorem nodup_put {attributes : List (String × Property)} (h : (attributes.map Prod.fst).Nodup)
    (name : String) (p : Property) : ((put attributes name p).map Prod.fst).Nodup := by
  rw [map_fst_put]
  split
  · exact h
  · next hmem =>
    rw [← List.concat_eq_append]
    exact h.concat hmem

theorem nodup_attributesOf (doc : Document) (n : Node) :
    Gives (fun attributes ↦ (attributes.map Prod.fst).Nodup) (attributesOf doc n) := by
  apply gives_bind_of
  intro entries
  refine Yaml.gives_foldlM (fun attributes entry h ↦ ?_) .nil entries
  exact gives_bind_of fun name ↦ gives_bind_of fun v ↦ gives_bind_of fun value ↦
    gives_pure (nodup_put h name value)

def Distinct (r : RuleDraft) : Prop := (r.attributes.map Prod.fst).Nodup

theorem distinct_ruleOf (doc : Document) (n : Node) : Gives Distinct (ruleOf doc n) := by
  apply gives_bind_of
  intro fields
  refine gives_bind_of fun artifact ↦ gives_bind_of fun moduleSource ↦
    gives_bind_of fun moduleVersion ↦ gives_bind_of fun substitutions ↦ ?_
  refine (Yaml.gives_optional ?_ (nodup_attributesOf doc)).bind fun attributes h ↦ gives_pure h
  exact .nil

theorem distinct_read (doc : Document) :
    Gives (fun d ↦ ∀ r ∈ d.rules, Distinct r.2) (read doc) := by
  apply gives_bind_of
  intro fields
  refine gives_bind_of fun provider ↦ gives_bind_of fun version ↦
    gives_bind_of fun description ↦ gives_bind_of fun idStart ↦ ?_
  refine Yaml.Gives.bind (Q := fun rules ↦ ∀ r ∈ rules, Distinct r.2) ?_
    fun rules h ↦ gives_bind_of fun tables ↦ gives_pure h
  refine Yaml.gives_required fun n ↦ gives_bind_of fun entries ↦ ?_
  refine Yaml.gives_mapM (fun entry ↦ gives_bind_of fun name ↦ gives_bind_of fun kind ↦ ?_) entries
  exact (distinct_ruleOf doc entry.2).bind fun r h ↦ gives_pure h

/-- The draft in a text, whether a rule set can come of it or not. -/
def ofText (text : String) : Except Yaml.Fault RuleSetDraft := do
  let doc ← Document.ofText? text.toList
  let (draft, _) ← (read doc).run 0
  return draft

end RuleSetDraft

namespace RuleSet

variable {text : String} {set : RuleSet}

/-- The characters of a literal are at hand, and are not found again in its bytes. -/
theorem toList_ofList_append (s t : List Char) :
    (String.ofList s ++ String.ofList t).toList = s ++ t := by
  rw [String.toList_append, String.toList_ofList, String.toList_ofList]

theorem ofText_eq_ok {d : RuleSetDraft} (hread : RuleSetDraft.ofText text = .ok d)
    (hfault : d.fault? = none) : ofText text = .ok d.finish := by
  unfold RuleSetDraft.ofText at hread
  unfold ofText
  dsimp only
  rw [hread]
  dsimp only
  rw [hfault]

theorem of_ofText_eq_ok (h : ofText text = .ok set) :
    ∃ d : RuleSetDraft, d.fault? = none ∧ (∀ r ∈ d.rules, RuleSetDraft.Distinct r.2) ∧
      set = d.finish := by
  unfold ofText at h
  dsimp only at h
  split at h
  · cases h
  · next d hread =>
    split at h
    · cases h
    · next hfault =>
      cases h
      obtain ⟨doc, -, hread⟩ := bind_eq_ok.1 hread
      obtain ⟨⟨d, n⟩, hrun, hread⟩ := bind_eq_ok.1 hread
      cases hread
      exact ⟨d, hfault, RuleSetDraft.distinct_read doc 0 d n hrun, rfl⟩

end RuleSet

end Multicloud
