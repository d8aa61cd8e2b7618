import Mathlib.Data.List.Basic
import Multicloud.Name.Label

namespace Multicloud.Text

variable {c : Char} {a b x y : List Char}

theorem append_cons_inj (ha : c ∉ a) (hb : c ∉ b) (h : a ++ c :: x = b ++ c :: y) :
    a = b ∧ x = y := by
  induction a generalizing b with
  | nil =>
    cases b with
    | nil => simpa using h
    | cons d b =>
      obtain ⟨rfl, -⟩ := List.cons.inj h
      simp at hb
  | cons d a ih =>
    cases b with
    | nil =>
      obtain ⟨rfl, -⟩ := List.cons.inj h
      simp at ha
    | cons e b =>
      obtain ⟨rfl, ht⟩ := List.cons.inj h
      obtain ⟨rfl, rfl⟩ := ih (fun h ↦ ha (.tail _ h)) (fun h ↦ hb (.tail _ h)) ht
      exact ⟨rfl, rfl⟩

theorem append_cons_inj_last (hx : c ∉ x) (hy : c ∉ y) (h : a ++ c :: x = b ++ c :: y) :
    a = b ∧ x = y := by
  have h : x.reverse ++ c :: a.reverse = y.reverse ++ c :: b.reverse := by
    simpa using congrArg List.reverse h
  obtain ⟨h₁, h₂⟩ := append_cons_inj (by simpa using hx) (by simpa using hy) h
  exact ⟨List.reverse_inj.1 h₂, List.reverse_inj.1 h₁⟩

theorem flatMap_terminated_inj {l l' : List (List Char)} (hl : ∀ s ∈ l, c ∉ s)
    (hl' : ∀ s ∈ l', c ∉ s) (h : l.flatMap (· ++ [c]) = l'.flatMap (· ++ [c])) : l = l' := by
  induction l generalizing l' with
  | nil =>
    cases l' with
    | nil => rfl
    | cons s l' => simp at h
  | cons s l ih =>
    cases l' with
    | nil => simp at h
    | cons s' l' =>
      simp only [List.flatMap_cons, List.append_assoc, List.singleton_append] at h
      obtain ⟨rfl, ht⟩ := append_cons_inj (hl s (.head _)) (hl' s' (.head _)) h
      rw [ih (fun s hs ↦ hl s (.tail _ hs)) (fun s hs ↦ hl' s (.tail _ hs)) ht]

theorem flatMap_terminated_cons (c : Char) (s : List Char) (l : List (List Char)) :
    (s :: l).flatMap (· ++ [c]) = (s ++ l.flatMap (c :: ·)) ++ [c] := by
  induction l generalizing s with
  | nil => simp
  | cons t l ih =>
    rw [List.flatMap_cons, ih]
    simp

theorem prefix_of_not_mem (ha : c ∉ a) (h : a ++ x = b ++ c :: y) : ∃ w, b = a ++ w := by
  rcases List.append_eq_append_iff.1 h with ⟨w, hb, -⟩ | ⟨w, rfl, hw⟩
  · exact ⟨w, hb⟩
  · cases w with
    | nil => exact ⟨[], by simp⟩
    | cons d w =>
      obtain ⟨rfl, -⟩ := List.cons.inj hw
      simp at ha

theorem suffix_of_not_mem (ha : c ∉ a) (h : x ++ a = y ++ c :: b) : ∃ w, b = w ++ a := by
  have h : a.reverse ++ x.reverse = b.reverse ++ c :: y.reverse := by
    simpa using congrArg List.reverse h
  obtain ⟨w, hw⟩ := prefix_of_not_mem (by simpa using ha) h
  exact ⟨w.reverse, by simpa using congrArg List.reverse hw⟩

section Split

variable (c) (s : List Char)

theorem flatMap_splitAt : (Name.splitAt c s).flatMap (· ++ [c]) = s ++ [c] := by
  induction s with
  | nil => rfl
  | cons d s ih =>
    rw [Name.splitAt]
    split
    · next hd => simp [ih, hd]
    · split
      · next hnil => simp [hnil] at ih
      · next part parts hcons => simpa [hcons] using ih

theorem not_mem_splitAt : ∀ part ∈ Name.splitAt c s, c ∉ part := by
  induction s with
  | nil => simp [Name.splitAt]
  | cons d s ih =>
    rw [Name.splitAt]
    split
    · exact List.forall_mem_cons.2 ⟨by simp, ih⟩
    · next hd =>
      split
      · simpa using Ne.symm hd
      · next part parts hcons =>
        rw [hcons, List.forall_mem_cons] at ih
        exact List.forall_mem_cons.2 ⟨by simpa using ⟨Ne.symm hd, ih.1⟩, ih.2⟩

variable {c s}

theorem splitAt_of_not_mem (h : c ∉ s) : Name.splitAt c s = [s] :=
  flatMap_terminated_inj (not_mem_splitAt c s) (by simpa using h)
    (by simpa using flatMap_splitAt c s)

theorem splitAt_of_mem (h : c ∈ s) :
    ∃ first middle last, Name.splitAt c s = first :: (middle ++ [last]) ∧
      (∃ x, s = first ++ c :: x) ∧ ∃ y, s = y ++ c :: last := by
  have hjoin := flatMap_splitAt c s
  have hparts := not_mem_splitAt c s
  match hs : Name.splitAt c s with
  | [] => simp [hs] at hjoin
  | [part] =>
    obtain rfl : part = s := by simpa [hs] using hjoin
    exact absurd h (by simpa [hs] using hparts)
  | first :: second :: rest =>
    rw [hs, flatMap_terminated_cons] at hjoin
    have hjoin := List.append_cancel_right hjoin
    obtain ⟨middle, last, hlast⟩ : ∃ middle last, second :: rest = middle ++ [last] :=
      ⟨_, _, (List.dropLast_concat_getLast (List.cons_ne_nil second rest)).symm⟩
    refine ⟨first, middle, last, by rw [hlast], ⟨second ++ rest.flatMap (c :: ·), ?_⟩,
      ⟨first ++ middle.flatMap (c :: ·), ?_⟩⟩
    · rw [← hjoin, List.flatMap_cons, List.cons_append]
    · rw [← hjoin, hlast]
      simp

theorem splitAt_append (c : Char) (s t : List Char) :
    Name.splitAt c (s ++ c :: t) = Name.splitAt c s ++ Name.splitAt c t := by
  refine flatMap_terminated_inj (not_mem_splitAt c _) (c := c) ?_ ?_
  · intro part hpart
    rcases List.mem_append.1 hpart with hpart | hpart
    · exact not_mem_splitAt c s part hpart
    · exact not_mem_splitAt c t part hpart
  · simp [flatMap_splitAt]

theorem splitAt_append_of_not_mem (s : List Char) {t : List Char} (ht : c ∉ t) :
    ∃ init last, Name.splitAt c s = init ++ [last] ∧
      Name.splitAt c (s ++ t) = init ++ [last ++ t] := by
  have hjoin := flatMap_splitAt c s
  have hparts := not_mem_splitAt c s
  rcases List.eq_nil_or_concat (Name.splitAt c s) with hnil | ⟨init, last, hs⟩
  · simp [hnil] at hjoin
  · rw [List.concat_eq_append] at hs
    rw [hs, List.flatMap_append, List.flatMap_singleton, ← List.append_assoc] at hjoin
    have hjoin := List.append_cancel_right hjoin
    refine ⟨init, last, hs, flatMap_terminated_inj (not_mem_splitAt c _) (c := c) ?_ ?_⟩
    · intro part hpart
      rw [hs] at hparts
      rcases List.mem_append.1 hpart with hpart | hpart
      · exact hparts part (List.mem_append_left _ hpart)
      · rw [List.mem_singleton.1 hpart, List.mem_append, not_or]
        exact ⟨hparts last (by simp), ht⟩
    · rw [flatMap_splitAt, ← hjoin]
      simp

theorem flatMap_terminated_intercalate (c : Char) {l : List (List Char)} (hl : l ≠ []) :
    l.flatMap (· ++ [c]) = [c].intercalate l ++ [c] := by
  induction l with
  | nil => exact absurd rfl hl
  | cons s l ih =>
    cases l with
    | nil => simp
    | cons t l =>
      rw [List.flatMap_cons, ih (List.cons_ne_nil _ _), List.intercalate_cons_cons]
      simp

theorem intercalate_splitAt (c : Char) (s : List Char) : [c].intercalate (Name.splitAt c s) = s := by
  have hjoin := flatMap_splitAt c s
  have hne : Name.splitAt c s ≠ [] := fun hnil ↦ by simp [hnil] at hjoin
  rw [flatMap_terminated_intercalate c hne] at hjoin
  exact List.append_cancel_right hjoin

theorem splitAt_intercalate {l : List (List Char)} (hl : l ≠ []) (h : ∀ s ∈ l, c ∉ s) :
    Name.splitAt c ([c].intercalate l) = l := by
  refine flatMap_terminated_inj (not_mem_splitAt c _) h ?_
  rw [flatMap_splitAt, flatMap_terminated_intercalate c hl]

end Split

theorem intercalate_inj {l l' : List (List Char)} (hl : ∀ s ∈ l, s ≠ [] ∧ c ∉ s)
    (hl' : ∀ s ∈ l', s ≠ [] ∧ c ∉ s) (h : [c].intercalate l = [c].intercalate l') : l = l' := by
  induction l generalizing l' with
  | nil =>
    match l' with
    | [] => rfl
    | [s] => exact absurd h.symm (by simpa using (hl' s (.head _)).1)
    | s :: t :: l' => simp [List.intercalate_cons_cons] at h
  | cons s l ih =>
    obtain ⟨hs, hc⟩ := hl s (.head _)
    match l, l' with
    | [], [] => exact absurd h (by simpa using hs)
    | _ :: _, [] => simp [List.intercalate_cons_cons] at h
    | [], [s'] => simpa using h
    | [], s' :: t' :: l' =>
      rw [List.intercalate_singleton, List.intercalate_cons_cons] at h
      exact absurd hc (by simp [h])
    | t :: l, [s'] =>
      rw [List.intercalate_singleton, List.intercalate_cons_cons] at h
      exact absurd (hl' s' (.head _)).2 (by simp [← h])
    | t :: l, s' :: t' :: l' =>
      simp only [List.intercalate_cons_cons, List.append_assoc, List.singleton_append] at h
      obtain ⟨rfl, ht⟩ := append_cons_inj hc (hl' s' (.head _)).2 h
      rw [ih (fun s hs ↦ hl s (.tail _ hs)) (fun s hs ↦ hl' s (.tail _ hs)) ht]

theorem not_mem_intercalate {d : Char} {l : List (List Char)} (hne : d ≠ c)
    (h : ∀ s ∈ l, d ∉ s) : d ∉ [c].intercalate l := by
  induction l with
  | nil => simp
  | cons s l ih =>
    cases l with
    | nil => simpa using h s
    | cons t l =>
      rw [List.intercalate_cons_cons]
      simp only [List.mem_append, List.mem_singleton, not_or]
      exact ⟨⟨h s (.head _), hne⟩, ih fun s hs ↦ h s (.tail _ hs)⟩

theorem map_congr_of_map_eq {α β γ : Type} {f : α → β} {f' : α → γ} {l l' : List α}
    (hf : ∀ s ∈ l, ∀ t ∈ l', f s = f t → f' s = f' t) (h : l.map f = l'.map f) :
    l.map f' = l'.map f' := by
  induction l generalizing l' with
  | nil =>
    obtain rfl : l' = [] := by simpa using h.symm
    rfl
  | cons s l ih =>
    cases l' with
    | nil => simp at h
    | cons t l' =>
      obtain ⟨hs, ht⟩ := List.cons.inj h
      rw [List.map_cons, List.map_cons, hf s (.head _) t (.head _) hs,
        ih (fun s hs t ht ↦ hf s (.tail _ hs) t (.tail _ ht)) ht]

theorem eq_of_map_eq {α β : Type} {f : α → β} {l l' : List α}
    (hf : ∀ s ∈ l, ∀ t ∈ l', f s = f t → s = t) (h : l.map f = l'.map f) : l = l' := by
  have h := map_congr_of_map_eq hf h
  rwa [List.map_id', List.map_id'] at h

end Multicloud.Text
