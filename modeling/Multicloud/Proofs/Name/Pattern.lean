import Multicloud.Name.Provider
import Multicloud.Proofs.Text.Separated

namespace Multicloud.Name

def Alnum (c : Char) : Prop := ('a' ≤ c ∧ c ≤ 'z') ∨ ('0' ≤ c ∧ c ≤ '9')

/-- `[a-z0-9]([a-z0-9-]{0,61}[a-z0-9])?` -/
inductive Label : List Char → Prop
  | one {c : Char} (hc : Alnum c) : Label [c]
  | long {c d : Char} {inner : List Char} (hc : Alnum c) (hd : Alnum d)
      (hinner : ∀ x ∈ inner, Alnum x ∨ x = '-') (hlength : inner.length ≤ 61) :
      Label (c :: (inner ++ [d]))

/-- `[a-z]{2,63}` -/
structure TopLevel (s : List Char) : Prop where
  least : 2 ≤ s.length
  most : s.length ≤ 63
  letters : ∀ c ∈ s, 'a' ≤ c ∧ c ≤ 'z'

/-- `(label\.)+[a-z]{2,63}` -/
inductive Dotted : List Char → Prop
  | last {l top : List Char} (hl : Label l) (htop : TopLevel top) : Dotted (l ++ '.' :: top)
  | more {l s : List Char} (hl : Label l) (hs : Dotted s) : Dotted (l ++ '.' :: s)

/-- `(\*\.)?(label\.)+[a-z]{2,63}` -/
def Domain (s : List Char) : Prop := Dotted s ∨ ∃ t, Dotted t ∧ s = '*' :: '.' :: t

/-- `[a-z][a-z0-9-]{0,31}` -/
inductive ProviderId : List Char → Prop
  | mk {c : Char} {rest : List Char} (hc : 'a' ≤ c ∧ c ≤ 'z')
      (hrest : ∀ x ∈ rest, Alnum x ∨ x = '-') (hlength : rest.length ≤ 31) : ProviderId (c :: rest)

variable {s t : List Char}

theorem isLabelChar_iff {c : Char} : isLabelChar c = true ↔ Alnum c ∨ c = '-' := by
  simp [isLabelChar, Alnum]

theorem Alnum.ne_hyphen {c : Char} (h : Alnum c) : c ≠ '-' := by
  rintro rfl
  revert h
  unfold Alnum
  decide

theorem Alnum.ne_dot {c : Char} (h : Alnum c) : c ≠ '.' := by
  rintro rfl
  revert h
  unfold Alnum
  decide

theorem isLabel_iff : isLabel s = true ↔ Label s := by
  simp only [isLabel, Bool.and_eq_true, Bool.not_eq_true', List.isEmpty_eq_false_iff,
    decide_eq_true_eq, List.all_eq_true, isLabelChar_iff, bne_iff_ne, ne_eq]
  constructor
  · rintro ⟨⟨⟨⟨hne, hlength⟩, hall⟩, hhead⟩, hlast⟩
    obtain ⟨c, rest, rfl⟩ := List.exists_cons_of_ne_nil hne
    have hc : Alnum c := (hall c (.head _)).resolve_right (by simpa using hhead)
    rcases List.eq_nil_or_concat rest with rfl | ⟨inner, d, rfl⟩
    · exact .one hc
    · rw [List.concat_eq_append] at *
      have hd : Alnum d := (hall d (by simp)).resolve_right (by
        simpa [List.getLast?_cons] using hlast)
      rw [List.length_cons, List.length_append, List.length_singleton] at hlength
      exact .long hc hd (fun x hx ↦ hall x (by simp [hx])) (by omega)
  · rintro (hc | ⟨hc, hd, hinner, hlength⟩)
    · simp [hc, hc.ne_hyphen]
    · refine ⟨⟨⟨⟨by simp, ?_⟩, ?_⟩, by simpa using hc.ne_hyphen⟩,
        by simpa [List.getLast?_cons] using hd.ne_hyphen⟩
      · rw [List.length_cons, List.length_append, List.length_singleton]
        omega
      · simp only [List.forall_mem_cons, List.forall_mem_append]
        exact ⟨.inl hc, hinner, .inl hd, by simp⟩

theorem isTopLevel_iff : isTopLevel s = true ↔ TopLevel s := by
  simp only [isTopLevel, Bool.and_eq_true, decide_eq_true_eq, List.all_eq_true]
  exact ⟨fun ⟨⟨h₁, h₂⟩, h₃⟩ ↦ ⟨h₁, h₂, h₃⟩, fun ⟨h₁, h₂, h₃⟩ ↦ ⟨⟨h₁, h₂⟩, h₃⟩⟩

theorem isProvider_iff : isProvider s = true ↔ ProviderId s := by
  cases s with
  | nil => exact ⟨fun h ↦ by simp [isProvider] at h, nofun⟩
  | cons c rest =>
    simp only [isProvider, Bool.and_eq_true, decide_eq_true_eq, List.all_eq_true, isLabelChar_iff]
    exact ⟨fun ⟨⟨hc, hlength⟩, hrest⟩ ↦ ⟨hc, hrest, hlength⟩,
      fun ⟨hc, hrest, hlength⟩ ↦ ⟨⟨hc, hlength⟩, hrest⟩⟩

theorem Label.dot_not_mem (h : Label s) : '.' ∉ s := by
  have hinner {c : Char} (h : Alnum c ∨ c = '-') : '.' ≠ c := by
    rcases h with h | rfl
    · exact h.ne_dot.symm
    · decide
  cases h with
  | one hc => simpa using hinner (.inl hc)
  | long hc hd hmid hlength =>
    simp only [List.mem_cons, List.mem_append, List.not_mem_nil, or_false, not_or]
    exact ⟨hinner (.inl hc), fun hmem ↦ hinner (hmid _ hmem) rfl, hinner (.inl hd)⟩

theorem TopLevel.dot_not_mem (h : TopLevel s) : '.' ∉ s := by
  intro hmem
  have := h.letters _ hmem
  revert this
  decide

/-- Labels and a top level, the parts of a dotted name. -/
def Parted (parts : List (List Char)) : Prop :=
  ∃ init top, parts = init ++ [top] ∧ init ≠ [] ∧ (∀ l ∈ init, Label l) ∧ TopLevel top

theorem Label.parted {parts : List (List Char)} (h : Parted (s :: parts)) : Label s := by
  obtain ⟨init, top, heq, hne, hlabels, -⟩ := h
  obtain ⟨l, init, rfl⟩ := List.exists_cons_of_ne_nil hne
  obtain ⟨rfl, -⟩ := List.cons.inj heq
  exact hlabels _ (.head _)

theorem Parted.ne_nil {parts : List (List Char)} (h : Parted parts) : parts ≠ [] := by
  obtain ⟨init, top, rfl, -⟩ := h
  simp

theorem not_label_star : ¬ Label ['*'] := by
  rw [← isLabel_iff]
  decide

theorem parted_of_dotted (h : Dotted s) : Parted (splitAt '.' s) := by
  induction h with
  | @last l top hl htop =>
    refine ⟨[l], top, ?_, by simp, by simpa using hl, htop⟩
    rw [Text.splitAt_append, Text.splitAt_of_not_mem hl.dot_not_mem,
      Text.splitAt_of_not_mem htop.dot_not_mem]
  | @more l s hl hs ih =>
    obtain ⟨init, top, hparts, -, hlabels, htop⟩ := ih
    refine ⟨l :: init, top, ?_, by simp, List.forall_mem_cons.2 ⟨hl, hlabels⟩, htop⟩
    rw [Text.splitAt_append, Text.splitAt_of_not_mem hl.dot_not_mem, hparts]
    rfl

theorem dotted_intercalate {init : List (List Char)} {top : List Char} (hne : init ≠ [])
    (hlabels : ∀ l ∈ init, Label l) (htop : TopLevel top) :
    Dotted (['.'].intercalate (init ++ [top])) := by
  induction init with
  | nil => exact absurd rfl hne
  | cons l init ih =>
    rw [List.forall_mem_cons] at hlabels
    cases init with
    | nil => simpa [List.intercalate_cons_cons] using Dotted.last hlabels.1 htop
    | cons l' init =>
      rw [List.cons_append, List.cons_append, List.intercalate_cons_cons, List.append_assoc]
      exact .more hlabels.1 (ih (by simp) hlabels.2)

theorem dotted_iff_parted : Dotted s ↔ Parted (splitAt '.' s) := by
  refine ⟨parted_of_dotted, fun ⟨init, top, hparts, hne, hlabels, htop⟩ ↦ ?_⟩
  have hs := dotted_intercalate hne hlabels htop
  rwa [← hparts, Text.intercalate_splitAt] at hs

def spelled (parts : List (List Char)) : Bool :=
  match parts.getLast? with
  | none => false
  | some top => decide (2 ≤ parts.length) && parts.dropLast.all isLabel && isTopLevel top

theorem spelled_iff {parts : List (List Char)} : spelled parts = true ↔ Parted parts := by
  rcases List.eq_nil_or_concat parts with rfl | ⟨init, top, rfl⟩
  · simp [spelled, Parted]
  · simp only [spelled, List.concat_eq_append, List.getLast?_concat, List.dropLast_concat, Parted,
      Bool.and_eq_true, decide_eq_true_eq, List.all_eq_true, isLabel_iff, isTopLevel_iff]
    constructor
    · rintro ⟨⟨htwo, hlabels⟩, htop⟩
      refine ⟨init, top, rfl, ?_, hlabels, htop⟩
      rintro rfl
      simp at htwo
    · rintro ⟨init', top', heq, hne, hlabels, htop⟩
      obtain ⟨rfl, htops⟩ := List.append_inj' heq rfl
      cases htops
      have := List.length_pos_iff.2 hne
      exact ⟨⟨by simp only [List.length_append, List.length_singleton]; omega, hlabels⟩, htop⟩

theorem isDomain_of_star {parts : List (List Char)} (h : splitAt '.' s = ['*'] :: parts) :
    isDomain s = spelled parts := by
  rw [isDomain, h]
  rfl

theorem isDomain_of_not_star (h : ∀ parts, splitAt '.' s ≠ ['*'] :: parts) :
    isDomain s = spelled (splitAt '.' s) := by
  unfold isDomain
  split
  · next parts hs => exact absurd hs (h parts)
  · rfl

theorem splitAt_star (t : List Char) : splitAt '.' ('*' :: '.' :: t) = ['*'] :: splitAt '.' t := by
  refine (Text.splitAt_append '.' ['*'] t).trans ?_
  rw [Text.splitAt_of_not_mem (by decide)]
  rfl

theorem isDomain_iff : isDomain s = true ↔ Domain s := by
  by_cases hstar : ∃ parts, splitAt '.' s = ['*'] :: parts
  · obtain ⟨parts, hsplit⟩ := hstar
    have hnot : ¬ Dotted s := fun h ↦ not_label_star (.parted (hsplit ▸ parted_of_dotted h))
    rw [isDomain_of_star hsplit, spelled_iff, Domain, or_iff_right hnot]
    constructor
    · intro h
      obtain ⟨l, parts, rfl⟩ := List.exists_cons_of_ne_nil h.ne_nil
      have hs : s = '*' :: '.' :: ['.'].intercalate (l :: parts) := by
        rw [← Text.intercalate_splitAt '.' s, hsplit, List.intercalate_cons_cons]
        rfl
      rw [hs, splitAt_star] at hsplit
      obtain ⟨-, hparts⟩ := List.cons.inj hsplit
      exact ⟨_, dotted_iff_parted.2 (by rwa [hparts]), hs⟩
    · rintro ⟨t, ht, rfl⟩
      rw [splitAt_star] at hsplit
      cases hsplit
      exact dotted_iff_parted.1 ht
  · have hnot : ¬ ∃ t, Dotted t ∧ s = '*' :: '.' :: t := by
      rintro ⟨t, -, rfl⟩
      exact hstar ⟨_, splitAt_star t⟩
    rw [isDomain_of_not_star (not_exists.1 hstar), spelled_iff, ← dotted_iff_parted, Domain,
      or_iff_left hnot]

end Multicloud.Name
