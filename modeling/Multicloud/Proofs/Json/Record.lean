import Multicloud.Json.Record
import Multicloud.Proofs.Fallible
import Multicloud.Proofs.Json.Written

namespace Multicloud.Json.Value

theorem tidy_ofText (s : String) : Tidy (ofText s) := .text s.toList

theorem tidy_ofTexts (items : List String) : Tidy (ofTexts items) := by
  refine .list fun v hv ↦ ?_
  obtain ⟨s, -, rfl⟩ := List.mem_map.1 hv
  exact tidy_ofText s

theorem tidy_record {fields : List (String × Value)} (h : ∀ e ∈ fields, Tidy e.2) :
    Tidy (record fields) := by
  refine .object ?_ ?_
  · simp only [List.mem_map]
    rintro _ ⟨e, -, rfl⟩
    exact ⟨_, rfl⟩
  · simp only [List.mem_map]
    rintro _ ⟨e, he, rfl⟩
    exact h e he

theorem text?_ofText (s : String) : (ofText s).text? = some s := by
  simp [ofText, text?, unescape_escape]

theorem list?_map {α : Type} {read : Value → Option α} {write : α → Value} {items : List α}
    (h : ∀ a ∈ items, read (write a) = some a) : (list (items.map write)).list? read = some items :=
  mapM_map_eq_some h

theorem list?_ofTexts (items : List String) : (ofTexts items).list? text? = some items :=
  list?_map fun s _ ↦ text?_ofText s

theorem entries?_record (fields : List (String × Value)) :
    (record fields).entries? = some fields :=
  mapM_map_eq_some fun e _ ↦ by simp [unescape_escape]

theorem fields?_record (known : List String) (fields : List (String × Value)) :
    (record fields).fields? known =
      fields.foldlM (fun fields e ↦ addField known fields e.1 e.2) [] := by
  have h := entries?_record fields
  simp only [record, fields?] at h ⊢
  rw [h]
  rfl

theorem foldlM_addField {known : List String} {fields before : Fields}
    (hknown : ∀ e ∈ fields, e.1 ∈ known) (hnodup : (fields.map Prod.fst).Nodup)
    (hnew : ∀ e ∈ fields, before.lookup e.1 = none) :
    fields.foldlM (fun fields e ↦ addField known fields e.1 e.2) before =
      some (fields.reverse ++ before) := by
  induction fields generalizing before with
  | nil => rfl
  | cons e fields ih =>
    obtain ⟨hk, hknown⟩ := List.forall_mem_cons.1 hknown
    obtain ⟨hnone, hnew⟩ := List.forall_mem_cons.1 hnew
    obtain ⟨hother, hnodup⟩ := List.nodup_cons.1 hnodup
    have hadd : addField known before e.1 e.2 = some (e :: before) := by
      rw [addField, if_pos hk, hnone]
      rfl
    rw [List.foldlM_cons, hadd, List.reverse_cons, List.append_assoc]
    refine ih hknown hnodup fun f hf ↦ ?_
    have hne : f.1 ≠ e.1 := fun he ↦ hother (he ▸ List.mem_map_of_mem hf)
    rw [List.lookup_cons, beq_false_of_ne hne]
    exact hnew f hf

theorem fields?_record_of_nodup {known : List String} {fields : Fields}
    (hknown : ∀ e ∈ fields, e.1 ∈ known) (hnodup : (fields.map Prod.fst).Nodup) :
    (record fields).fields? known = some fields.reverse := by
  rw [fields?_record, foldlM_addField hknown hnodup fun _ _ ↦ rfl, List.append_nil]

section Map

variable {α β : Type} [Ord α] [Std.TransOrd α]

theorem ofList_toList [Std.LawfulEqOrd α] [BEq α] [LawfulBEq α] (m : Std.ExtTreeMap α β) :
    Std.ExtTreeMap.ofList m.toList compare = m := by
  refine Std.ExtTreeMap.ext_getElem? fun k ↦ ?_
  cases h : m[k]? with
  | some v =>
    exact Std.ExtTreeMap.getElem?_ofList_of_mem Std.ReflCmp.compare_self m.distinct_keys_toList
      (Std.ExtTreeMap.mem_toList_iff_getElem?_eq_some.2 h)
  | none =>
    refine Std.ExtTreeMap.getElem?_ofList_of_contains_eq_false ?_
    rw [Std.ExtTreeMap.map_fst_toList_eq_keys, ← Bool.not_eq_true, List.contains_iff_mem,
      Std.ExtTreeMap.mem_keys, Std.ExtTreeMap.mem_iff_isSome_getElem?, h]
    simp

theorem foldlM_insert {key : String → Option α} {name : α → String} {read : Value → Option β}
    (write : β → Value) (hkey : ∀ a, key (name a) = some a) (entries : List (α × β))
    (hread : ∀ e ∈ entries, read (write e.2) = some e.2) (m : Std.ExtTreeMap α β) :
    (entries.map fun e ↦ (name e.1, write e.2)).foldlM
        (fun m (e : String × Value) ↦ do return m.insert (← key e.1) (← read e.2)) m =
      some (entries.foldl (fun m e ↦ m.insert e.1 e.2) m) := by
  induction entries generalizing m with
  | nil => rfl
  | cons e entries ih =>
    rw [List.map_cons, List.foldlM_cons, hkey, hread e (.head _)]
    exact ih (fun e he ↦ hread e (.tail _ he)) _

theorem map?_record [Std.LawfulEqOrd α] [BEq α] [LawfulBEq α] {key : String → Option α}
    {name : α → String} {read : Value → Option β} (write : β → Value)
    (hkey : ∀ a, key (name a) = some a) (m : Std.ExtTreeMap α β)
    (hread : ∀ e ∈ m.toList, read (write e.2) = some e.2) :
    (record (m.toList.map fun e ↦ (name e.1, write e.2))).map? key read = some m := by
  rw [map?, entries?_record]
  have h := foldlM_insert write hkey m.toList hread ∅
  rw [← Std.ExtTreeMap.ofList_eq_foldl, ofList_toList] at h
  exact h

end Map

end Multicloud.Json.Value
