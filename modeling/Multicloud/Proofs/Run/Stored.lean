import Multicloud.Proofs.Json.Record
import Multicloud.Run.Stored

namespace Multicloud

open Json (Value)

theorem Provider.ofName?_name (p : Provider) : ofName? p.name = some p := by
  simp [ofName?, p.valid]

theorem Provider.ofJson?_ofText (p : Provider) : ofJson? (.ofText p.name) = some p := by
  rw [ofJson?, Value.text?_ofText]
  exact p.ofName?_name

theorem Kind.ofJson?_ofText (k : Kind) : ofJson? (.ofText k.name) = some k := by
  have h : ofJson? (.ofText k.name) = (Value.ofText k.name).text?.bind ofName? := rfl
  rw [h, Value.text?_ofText]
  exact k.ofName?_name

namespace Artifact

theorem tidy_toJson (a : Artifact) : a.toJson.Tidy := by
  refine Value.tidy_record ?_
  simp only [List.forall_mem_cons, Value.tidy_ofText, Value.tidy_ofTexts, true_and]
  simp

theorem ofJson?_toJson (a : Artifact) : ofJson? a.toJson = some a := by
  rw [ofJson?, toJson, Value.fields?_record_of_nodup (by simp) (by simp)]
  simp [Value.Fields.get?, List.lookup_cons, Value.text?_ofText,
    Value.list?_ofTexts, Provider.ofJson?_ofText, Kind.ofJson?_ofText]

end Artifact

namespace Composition

theorem tidy_toJson (c : Composition) : c.toJson.Tidy := by
  refine Value.tidy_record ?_
  simp only [List.forall_mem_cons, Value.tidy_ofText, Value.tidy_ofTexts, true_and]
  simp

theorem ofJson?_toJson (c : Composition) : ofJson? c.toJson = some c := by
  have hp : (Value.ofTexts (c.providers.map Provider.name)).list? Provider.ofJson? =
      some c.providers := by
    rw [Value.ofTexts, List.map_map]
    exact Value.list?_map fun p _ ↦ p.ofJson?_ofText
  rw [ofJson?, toJson, Value.fields?_record_of_nodup (by simp) (by simp)]
  simp [Value.Fields.get?, List.lookup_cons, Value.text?_ofText,
    Value.list?_ofTexts, hp]

end Composition

namespace StoredRun

theorem tidy_toJson (run : StoredRun) : run.toJson.Tidy := by
  refine Value.tidy_record ?_
  simp only [List.forall_mem_cons]
  refine ⟨Value.tidy_record ?_, ?_, by simp⟩
  · simp only [List.mem_map]
    rintro _ ⟨⟨p, as⟩, -, rfl⟩
    refine .list fun v hv ↦ ?_
    obtain ⟨a, -, rfl⟩ := List.mem_map.1 hv
    exact a.tidy_toJson
  · cases run.composition with
    | none => exact .null
    | some c => exact c.tidy_toJson

theorem ofJson?_toJson (run : StoredRun) : ofJson? run.toJson = some run := by
  have ha : (Value.record (run.artifacts.toList.map fun e ↦
      (e.1.name, Value.list (e.2.map Artifact.toJson)))).map? Provider.ofName?
        (Value.list? Artifact.ofJson?) = some run.artifacts :=
    Value.map?_record (fun as ↦ Value.list (as.map Artifact.toJson)) Provider.ofName?_name
      run.artifacts fun e _ ↦ Value.list?_map fun a _ ↦ a.ofJson?_toJson
  have hc : ((run.composition.map Composition.toJson).getD .null).option? Composition.ofJson? =
      some run.composition := by
    cases run.composition with
    | none => rfl
    | some c =>
      have h : c.toJson.option? Composition.ofJson? = (Composition.ofJson? c.toJson).map some := rfl
      rw [Option.map_some, Option.getD_some, h, c.ofJson?_toJson]
      rfl
  rw [ofJson?, toJson, Value.fields?_record_of_nodup (by simp) (by simp)]
  simp [Value.Fields.get?, List.lookup_cons, ha, hc]

theorem ofText?_text (run : StoredRun) : ofText? run.text = some run := by
  rw [ofText?, text, Value.line, String.toList_ofList, Value.ofText?_compact run.tidy_toJson,
    Option.bind_some, run.ofJson?_toJson]

end StoredRun

end Multicloud
