import Multicloud.Lock.Entry
import Multicloud.Proofs.Run.Binding
import Multicloud.Proofs.Run.Stored
import Multicloud.Proofs.Time.Rfc3339

namespace Multicloud

open Json (Value)

theorem Version.ofText?_text (v : Version) : ofText? v.text = some v := by
  unfold ofText?
  split
  · next segments h =>
    have hsegments : v.segments = segments := Option.some.inj (v.read.symm.trans h)
    exact congrArg some (eq_of_text_eq rfl)
  · next h =>
    rw [v.read] at h
    cases h

namespace LockEntry

theorem provider?_ofText (p : Provider) : provider? (.ofText p.name) = some p := by
  rw [provider?, Value.text?_ofText]
  exact p.ofName?_name

theorem version?_ofText (v : Version) : version? (.ofText v.text) = some v := by
  rw [version?, Value.text?_ofText]
  exact v.ofText?_text

theorem tidy_toJson (e : LockEntry) : e.toJson.Tidy := by
  refine Value.tidy_record ?_
  simp only [List.forall_mem_cons, Value.tidy_ofText, Value.tidy_ofTexts, true_and]
  refine ⟨Value.tidy_record ?_, by simp⟩
  simp only [List.mem_map]
  rintro _ ⟨⟨p, v⟩, -, rfl⟩
  exact Value.tidy_ofText v.text

theorem ofJson?_toJson (e : LockEntry) : ofJson? e.toJson = some e := by
  have hbinding : binding? (.record (e.binding.toList.map fun x ↦ (x.1.name, .ofText x.2.text))) =
      some e.binding :=
    Value.map?_record (fun v : Version ↦ Value.ofText v.text) Provider.ofName?_name e.binding
      fun x _ ↦ version?_ofText x.2
  have htargets : (Value.ofTexts (e.targets.map Provider.name)).list? provider? =
      some e.targets := by
    rw [Value.ofTexts, List.map_map]
    exact Value.list?_map fun p _ ↦ provider?_ofText p
  rw [ofJson?, toJson, Value.fields?_record_of_nodup (by simp) (by simp)]
  simp [Value.Fields.get?, List.lookup_cons, Value.text?_ofText, hbinding, htargets,
    Instant.ofText?_text]

theorem ofLine?_compact (e : LockEntry) : ofLine? e.toJson.compact = some e := by
  rw [ofLine?, Value.ofText?_compact e.tidy_toJson, Option.bind_some, e.ofJson?_toJson]

end LockEntry

end Multicloud
