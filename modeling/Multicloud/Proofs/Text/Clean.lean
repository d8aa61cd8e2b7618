import Std.Data.String.ToNat
import Multicloud.Name.Label

namespace Multicloud.Text

/-- What ends a text in the encodings that are digested. -/
def separators : List Char := ['\x00', ',', '/', ';', '=', '@', '|']

def Clean (s : List Char) : Prop := ∀ c ∈ separators, c ∉ s

instance (s : List Char) : Decidable (Clean s) := List.decidableBAll (p := (· ∉ s)) separators

variable {s t : List Char}

theorem Clean.not_mem (h : Clean s) {cs : List Char}
    (hcs : cs.all (separators.contains ·) = true) : ∀ c ∈ cs, c ∉ s := by
  intro c hc
  have hsep := List.all_eq_true.1 hcs c hc
  exact h c (by simpa using hsep)

theorem clean_of_all {p : Char → Bool} (hp : separators.any p = false)
    (h : ∀ c ∈ s, p c = true) : Clean s := by
  intro c hc hmem
  exact List.any_eq_false.1 hp c hc (h c hmem)

/-- What the names in a document are made of. -/
def isSimpleChar (c : Char) : Bool :=
  Name.isLabelChar c || ('A' ≤ c && c ≤ 'Z') || c = '.' || c = '*' || c = '_'

def Simple (s : List Char) : Prop := ∀ c ∈ s, isSimpleChar c = true

instance (s : List Char) : Decidable (Simple s) :=
  List.decidableBAll (p := (isSimpleChar · = true)) s

theorem Simple.append (hs : Simple s) (ht : Simple t) : Simple (s ++ t) := fun c h ↦
  (List.mem_append.1 h).elim (hs c) (ht c)

theorem Simple.not_mem {c : Char} (hc : isSimpleChar c = false) (h : Simple s) : c ∉ s := by
  intro hmem
  rw [h c hmem] at hc
  cases hc

theorem Simple.clean (h : Simple s) : Clean s := clean_of_all (by decide) h

theorem isDigit_of_mem_repr {n : Nat} {c : Char} (h : c ∈ (Nat.repr n).toList) :
    c.isDigit = true := by
  rw [Nat.toList_repr] at h
  exact Nat.isDigit_of_mem_toDigits (by decide) (by decide) h

theorem simple_repr (n : Nat) : Simple (Nat.repr n).toList := by
  intro c hc
  have hdigit := isDigit_of_mem_repr hc
  simp only [Char.isDigit, Bool.and_eq_true, decide_eq_true_eq, ge_iff_le] at hdigit
  have hlow : '0' ≤ c := hdigit.1
  have hhigh : c ≤ '9' := hdigit.2
  simp [isSimpleChar, Name.isLabelChar, hlow, hhigh]

theorem all_of_isLabel (h : Name.isLabel s = true) : ∀ c ∈ s, Name.isLabelChar c = true := by
  simp only [Name.isLabel, Bool.and_eq_true] at h
  exact List.all_eq_true.1 h.1.1.2

theorem simple_of_all_isLabelChar (h : ∀ c ∈ s, Name.isLabelChar c = true) : Simple s := by
  intro c hc
  rw [isSimpleChar, h c hc]
  rfl

theorem simple_of_isLabel (h : Name.isLabel s = true) : Simple s :=
  simple_of_all_isLabelChar (all_of_isLabel h)

theorem clean_of_isLabel (h : Name.isLabel s = true) : Clean s := (simple_of_isLabel h).clean

theorem mem_splitAt (sep : Char) {c : Char} (h : c ∈ s) :
    c = sep ∨ ∃ part ∈ Name.splitAt sep s, c ∈ part := by
  induction s with
  | nil => simp at h
  | cons d s ih =>
    rw [Name.splitAt]
    split
    · next hd =>
      rcases List.mem_cons.1 h with rfl | h
      · exact .inl hd
      · exact (ih h).imp_right fun ⟨part, hpart, hc⟩ ↦ ⟨part, .tail _ hpart, hc⟩
    · split
      · next hnil =>
        rcases List.mem_cons.1 h with rfl | h
        · exact .inr ⟨[c], .head _, .head _⟩
        · exact (ih h).imp_right fun ⟨part, hpart, _⟩ ↦ by simp [hnil] at hpart
      · next part parts hcons =>
        rcases List.mem_cons.1 h with rfl | h
        · exact .inr ⟨_, .head _, .head _⟩
        · refine (ih h).imp_right fun ⟨part', hpart, hc⟩ ↦ ?_
          rcases List.mem_cons.1 (hcons ▸ hpart) with rfl | hpart
          · exact ⟨_, .head _, .tail _ hc⟩
          · exact ⟨part', .tail _ hpart, hc⟩

theorem simple_of_isTopLevel (h : Name.isTopLevel s = true) : Simple s := by
  intro c hc
  simp only [Name.isTopLevel, Bool.and_eq_true] at h
  simp [isSimpleChar, Name.isLabelChar, List.all_eq_true.1 h.2 c hc]

theorem simple_of_labels {parts : List (List Char)}
    (h : (match parts.getLast? with
      | none => false
      | some top => decide (2 ≤ parts.length) && parts.dropLast.all Name.isLabel &&
          Name.isTopLevel top) = true) : ∀ part ∈ parts, Simple part := by
  intro part hpart
  split at h
  · cases h
  · next top htop =>
    simp only [Bool.and_eq_true] at h
    obtain ⟨init, rfl⟩ := List.getLast?_eq_some_iff.1 htop
    rcases List.mem_append.1 hpart with hpart | hpart
    · exact simple_of_isLabel (List.all_eq_true.1 h.1.2 part (by simpa using hpart))
    · rw [List.mem_singleton.1 hpart]
      exact simple_of_isTopLevel h.2

theorem simple_of_isDomain (h : Name.isDomain s = true) : Simple s := by
  have hparts : ∀ part ∈ Name.splitAt '.' s, Simple part := by
    have h := simple_of_labels h
    split at h
    · next parts hsplit =>
      rw [hsplit, List.forall_mem_cons]
      exact ⟨by decide, h⟩
    · exact h
  intro c hmem
  rcases mem_splitAt '.' hmem with rfl | ⟨part, hpart, hc⟩
  · rfl
  · exact hparts part hpart c hc

end Multicloud.Text
