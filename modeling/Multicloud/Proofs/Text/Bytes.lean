import Mathlib.Data.List.Basic

namespace Multicloud.Text

variable {s t : String}

def bytes (s : String) : List UInt8 := s.toUTF8.data.toList

theorem bytes_eq (s : String) : bytes s = s.toList.flatMap String.utf8EncodeChar := by
  rw [bytes, String.toUTF8_eq_toByteArray, ← String.utf8Encode_toList, List.utf8Encode]
  simp

theorem cons_ofNat_lt {a b : Nat} (ha : a < 256) (hb : b < 256) {u v : List UInt8} :
    UInt8.ofNat a :: u < UInt8.ofNat b :: v ↔ a < b ∨ a = b ∧ u < v := by
  rw [List.cons_lt_cons_iff, UInt8.lt_iff_toNat_lt, ← UInt8.toNat_inj, UInt8.toNat_ofNat',
    UInt8.toNat_ofNat', Nat.mod_eq_of_lt ha, Nat.mod_eq_of_lt hb]

theorem digits_lt {m n : Nat} (h : m < n) :
    m / 262144 < n / 262144 ∨ m / 262144 = n / 262144 ∧
      (m / 4096 % 64 < n / 4096 % 64 ∨ m / 4096 % 64 = n / 4096 % 64 ∧
        (m / 64 % 64 < n / 64 % 64 ∨ m / 64 % 64 = n / 64 % 64 ∧ m % 64 < n % 64)) := by
  have hnested (x : Nat) : x / 4096 = x / 64 / 64 ∧ x / 262144 = x / 64 / 64 / 64 := by omega
  rw [(hnested m).1, (hnested m).2, (hnested n).1, (hnested n).2]
  omega

theorem encode_append_lt {c d : Char} (h : c < d) (u v : List UInt8) :
    String.utf8EncodeChar c ++ u < String.utf8EncodeChar d ++ v := by
  have h : c.val.toNat < d.val.toNat := h
  have hd : d.val.toNat < 1114112 := d.valid.elim (by omega) (by omega)
  unfold String.utf8EncodeChar
  generalize c.val.toNat = m at h ⊢
  generalize d.val.toNat = n at h hd ⊢
  have hdigits := digits_lt h
  have htop {x : Nat} (hx : x < 1114112) : x / 262144 % 8 = x / 262144 := by omega
  have hm := htop (Nat.lt_trans h hd)
  have hn := htop hd
  dsimp only
  -- A case for each pair of lengths; the shorter encoding has the lesser first byte.
  split_ifs <;>
    simp (disch := omega) only [List.cons_append, List.nil_append, cons_ofNat_lt] <;> omega

theorem flatMap_encode_lt {l m : List Char} (h : l < m) :
    l.flatMap String.utf8EncodeChar < m.flatMap String.utf8EncodeChar := by
  induction l generalizing m with
  | nil =>
    cases m with
    | nil => exact absurd h (List.lt_irrefl _)
    | cons d m =>
      cases he : (d :: m).flatMap String.utf8EncodeChar with
      | nil => simp [String.utf8EncodeChar_ne_nil] at he
      | cons x u => exact List.nil_lt_cons x u
  | cons c l ih =>
    cases m with
    | nil => exact absurd h (List.not_lt_nil _)
    | cons d m =>
      rw [List.flatMap_cons, List.flatMap_cons]
      obtain hlt | ⟨rfl, hlt⟩ := List.cons_lt_cons_iff.1 h
      · exact encode_append_lt hlt _ _
      · exact List.append_left_lt (ih hlt)

theorem bytes_lt_bytes_of_lt (h : s < t) : bytes s < bytes t := by
  rw [bytes_eq, bytes_eq]
  exact flatMap_encode_lt h

theorem bytes_lt_bytes : bytes s < bytes t ↔ s < t := by
  refine ⟨fun h ↦ String.not_le.1 fun hle ↦ ?_, bytes_lt_bytes_of_lt⟩
  by_cases hlt : t < s
  · exact List.lt_asymm (bytes_lt_bytes_of_lt hlt) h
  · obtain rfl := String.le_antisymm hle (String.not_lt.1 hlt)
    exact List.lt_irrefl _ h

theorem compare_eq_lt : compare s t = .lt ↔ bytes s < bytes t :=
  compareOfLessAndEq_eq_lt.trans bytes_lt_bytes.symm

end Multicloud.Text
