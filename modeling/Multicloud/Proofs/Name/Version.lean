import Multicloud.Name.Version

namespace Multicloud.Version

variable {v w : Version}

/-- Number by number, where what another one goes on from is below it, and by the text where the
numbers are the same. -/
def NotAbove (v w : Version) : Prop :=
  v.segments < w.segments ∨ v.segments = w.segments ∧ v.text ≤ w.text

theorem compare_segments_eq_lt {xs ys : List Nat} : compare xs ys = .lt ↔ xs < ys := by
  induction xs generalizing ys with
  | nil => cases ys <;> simp
  | cons x xs ih =>
    cases ys with
    | nil => simp
    | cons y ys =>
      rw [List.compare_cons_cons, Ordering.then_eq_lt, Nat.compare_eq_lt, Nat.compare_eq_eq, ih,
        List.cons_lt_cons_iff]

theorem isLE_compare_text {s t : String} : (compare s t).isLE = true ↔ s ≤ t :=
  isLE_compareOfLessAndEq String.le_antisymm String.not_le String.le_total

theorem isLE_compare_iff : (compare v w).isLE = true ↔ v.NotAbove w := by
  show ((compare v.segments w.segments).then (compare v.text w.text)).isLE = true ↔ _
  rw [NotAbove, ← compare_segments_eq_lt, ← isLE_compare_text]
  cases h : compare v.segments w.segments with
  | lt => simp
  | eq => simp [Std.LawfulEqOrd.eq_of_compare h]
  | gt =>
    have hne : v.segments ≠ w.segments := by
      intro he
      rw [he, Std.ReflOrd.compare_self] at h
      cases h
    simp [hne]

end Multicloud.Version
