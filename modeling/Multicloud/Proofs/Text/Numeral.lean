import Mathlib.Algebra.Group.Nat.Defs
import Multicloud.Proofs.Text.Clean
import Multicloud.Time.Rfc3339

namespace Multicloud.Text

variable {s : List Char} {c : Char} {n width : Nat}

theorem digit?_of_isDigit (h : c.isDigit = true) : digit? 10 c = some (c.toNat - '0'.toNat) := by
  simp only [Char.isDigit, Bool.and_eq_true, decide_eq_true_eq] at h
  have hlow : '0' ≤ c := h.1
  have hhigh : c ≤ '9' := h.2
  have hlt : c.toNat - '0'.toNat < 10 := by
    have hnat : c.toNat ≤ '9'.toNat := UInt32.le_iff_toNat_le.1 h.2
    have hnine : '9'.toNat = 57 := rfl
    have hzero : '0'.toNat = 48 := rfl
    omega
  simp only [digit?, hlow, hhigh, and_self, if_true]
  exact if_pos hlt

theorem digits?_of_isDigit (h : ∀ c ∈ s, c.isDigit = true) :
    digits? 10 s = some (s.map fun c ↦ c.toNat - '0'.toNat) := by
  induction s with
  | nil => rfl
  | cons c s ih =>
    rw [digits?, List.mapM_cons, digit?_of_isDigit (h c (.head _))]
    have hs := ih fun d hd ↦ h d (.tail _ hd)
    rw [digits?] at hs
    rw [hs]
    rfl

theorem ofDigits_map (s : List Char) :
    ofDigits 10 (s.map fun c ↦ c.toNat - '0'.toNat) = Nat.ofDigitChars 10 s 0 := by
  rw [ofDigits, List.foldl_map, Nat.ofDigitChars_eq_foldl]
  simp only [Nat.mul_comm]

theorem readNat_of_isDigit (hs : s ≠ []) (h : ∀ c ∈ s, c.isDigit = true) :
    readNat 10 s = some (Nat.ofDigitChars 10 s 0) := by
  have hempty : s.isEmpty = false := by simpa using hs
  rw [readNat, hempty, digits?_of_isDigit h, Option.map_some, ofDigits_map]
  rfl

theorem isDigit_of_mem_digitsOfWidth (h : c ∈ digitsOfWidth width n) : c.isDigit = true := by
  rcases List.mem_append.1 h with h | h
  · rw [List.eq_of_mem_replicate h]
    rfl
  · exact isDigit_of_mem_repr h

theorem digitsOfWidth_ne_nil (width n : Nat) : digitsOfWidth width n ≠ [] := by
  intro h
  have hrepr : (Nat.repr n).toList = [] := (List.append_eq_nil_iff.1 h).2
  exact Nat.repr_ne_empty (String.toList_eq_nil_iff.1 hrepr)

theorem ofDigitChars_digitsOfWidth (width n : Nat) :
    Nat.ofDigitChars 10 (digitsOfWidth width n) 0 = n := by
  rw [digitsOfWidth, Nat.ofDigitChars_append, Nat.ofDigitChars_replicate_zero, Nat.mul_zero,
    Nat.toList_repr, Nat.ofDigitChars_ten_toDigits]

theorem length_digitsOfWidth (hw : 0 < width) (h : n < 10 ^ width) :
    (digitsOfWidth width n).length = width := by
  have hrepr : (Nat.repr n).toList.length ≤ width := by
    rw [Nat.toList_repr]
    exact (Nat.length_toDigits_le_iff (by decide) hw).2 h
  rw [digitsOfWidth, List.length_append, List.length_replicate]
  omega

end Multicloud.Text
