import Mathlib.Tactic.IntervalCases
import Multicloud.Time.Calendar

namespace Multicloud.Date

variable {y z n : Int}

/-- A year from March on is as long as the next calendar year, whose February it ends with. -/
theorem yearStart_succ (y : Int) :
    yearStart (y + 1) = yearStart y + 365 + if isLeap (y + 1) then 1 else 0 := by
  unfold yearStart isLeap
  split
  · next h =>
    simp only [Bool.and_eq_true, Bool.or_eq_true, decide_eq_true_eq] at h
    omega
  · next h =>
    simp only [Bool.and_eq_true, Bool.or_eq_true, decide_eq_true_eq, not_and, not_or] at h
    omega

theorem yearStart_bounds (y : Int) :
    146097 * y - 699 ≤ 400 * yearStart y ∧ 400 * yearStart y ≤ 146097 * y + 396 := by
  unfold yearStart
  omega

theorem yearStart_mono (h : y ≤ z) : yearStart y ≤ yearStart z := by
  unfold yearStart
  omega

theorem yearOf_spec (n : Int) : yearStart (yearOf n) ≤ n ∧ n < yearStart (yearOf n + 1) := by
  have hlow := (yearStart_bounds (400 * n / 146097 - 1)).2
  have hhigh := (yearStart_bounds (400 * n / 146097 + 1 + 1)).1
  have hdiv : 146097 * (400 * n / 146097) ≤ 400 * n ∧
      400 * n < 146097 * (400 * n / 146097) + 146097 := by omega
  unfold yearOf
  dsimp only
  generalize 400 * n / 146097 = y at *
  split
  · rw [Int.sub_add_cancel]
    omega
  · split <;> omega

theorem le_yearOf {first : Int} (h : yearStart first ≤ n) : first ≤ yearOf n := by
  by_contra hlt
  have hmono := yearStart_mono (y := yearOf n + 1) (z := first) (by omega)
  have hspec := (yearOf_spec n).2
  omega

theorem yearOf_le {last : Int} (h : n < yearStart (last + 1)) : yearOf n ≤ last := by
  by_contra hlt
  have hmono := yearStart_mono (y := last + 1) (z := yearOf n) (by omega)
  have hspec := (yearOf_spec n).1
  omega

def ofDay (y : Int) (day : Nat) : Date :=
  let m := (5 * day + 2) / 153
  { year := if m < 10 then y else y + 1
    month := if m < 10 then m + 3 else m - 9
    day := day - monthStart m + 1 }

theorem ofNumber_eq (n : Int) :
    ∃ day : Nat, ofNumber n = ofDay (yearOf (n + epoch)) day ∧
      yearStart (yearOf (n + epoch)) + day = n + epoch ∧
      day < 365 + if isLeap (yearOf (n + epoch) + 1) then 1 else 0 := by
  obtain ⟨hlow, hhigh⟩ := yearOf_spec (n + epoch)
  have hsucc := yearStart_succ (yearOf (n + epoch))
  refine ⟨(n + epoch - yearStart (yearOf (n + epoch))).toNat, rfl, by omega, ?_⟩
  split <;> simp_all <;> omega

theorem month_spec {day m : Nat} (hday : day ≤ 365) (hm : m = (5 * day + 2) / 153) :
    m ≤ 11 ∧ monthStart m ≤ day ∧ (m < 11 → day < monthStart (m + 1)) := by
  unfold monthStart
  omega

theorem ofDay_early {day m : Nat} (hm : m = (5 * day + 2) / 153) (h : m < 10) (y : Int) :
    ofDay y day = ⟨y, m + 3, day - monthStart m + 1⟩ := by
  simp [ofDay, ← hm, h]

theorem ofDay_late {day m : Nat} (hm : m = (5 * day + 2) / 153) (h : ¬ m < 10) (y : Int) :
    ofDay y day = ⟨y + 1, m - 9, day - monthStart m + 1⟩ := by
  simp [ofDay, ← hm, h]

theorem number_ofDay {day : Nat} (hday : day ≤ 365) (y : Int) :
    (ofDay y day).number = yearStart y + day - epoch := by
  obtain ⟨m, hm⟩ : ∃ m, m = (5 * day + 2) / 153 := ⟨_, rfl⟩
  obtain ⟨hle, hstart, -⟩ := month_spec hday hm
  by_cases h : m < 10
  · have hmonth : (m + 3 + 9) % 12 = m := by omega
    rw [ofDay_early hm h, number]
    dsimp only
    rw [hmonth, if_neg (by omega)]
    omega
  · have hmonth : (m - 9 + 9) % 12 = m := by omega
    rw [ofDay_late hm h, number]
    dsimp only
    rw [hmonth, if_pos (by omega), Int.add_sub_cancel]
    omega

theorem number_ofNumber (n : Int) : (ofNumber n).number = n := by
  obtain ⟨day, hdate, hsum, hday⟩ := ofNumber_eq n
  have hle : day ≤ 365 := by split at hday <;> omega
  rw [hdate, number_ofDay hle]
  omega

theorem day_le_monthLength {y : Int} {day m : Nat}
    (hday : day < 365 + if isLeap (y + 1) then 1 else 0) (hm : m = (5 * day + 2) / 153) :
    day - monthStart m + 1 ≤
      if m < 10 then monthLength y (m + 3) else monthLength (y + 1) (m - 9) := by
  have hle : day ≤ 365 := by split at hday <;> omega
  obtain ⟨hmle, hstart, hnext⟩ := month_spec hle hm
  clear hm
  unfold monthStart at *
  unfold monthLength
  interval_cases m
  case «11» =>
    rw [if_neg (by decide), if_pos (by decide)]
    cases hleap : isLeap (y + 1)
    all_goals
      rw [hleap] at hday
      simp only [Bool.false_eq_true, if_false, if_true] at hday ⊢
      omega
  all_goals simp_all
  all_goals omega

theorem isValid_ofDay {y : Int} {day : Nat}
    (hday : day < 365 + if isLeap (y + 1) then 1 else 0) : (ofDay y day).isValid = true := by
  obtain ⟨m, hm⟩ : ∃ m, m = (5 * day + 2) / 153 := ⟨_, rfl⟩
  have hle : day ≤ 365 := by split at hday <;> omega
  obtain ⟨hmle, -, -⟩ := month_spec hle hm
  have hlength := day_le_monthLength hday hm
  by_cases h : m < 10
  · rw [if_pos h] at hlength
    rw [ofDay_early hm h]
    simp only [isValid, Bool.and_eq_true, decide_eq_true_eq]
    omega
  · rw [if_neg h] at hlength
    rw [ofDay_late hm h]
    simp only [isValid, Bool.and_eq_true, decide_eq_true_eq]
    omega

theorem isValid_ofNumber (n : Int) : (ofNumber n).isValid = true := by
  obtain ⟨day, hdate, -, hday⟩ := ofNumber_eq n
  rw [hdate]
  exact isValid_ofDay hday

/-- The days from the start of the year -262143 to the end of the year 262142. -/
theorem year_ofNumber (hlow : -96465292 ≤ n) (hhigh : n ≤ 95026236) :
    -262143 ≤ (ofNumber n).year ∧ (ofNumber n).year ≤ 262142 := by
  obtain ⟨day, hdate, hsum, hday⟩ := ofNumber_eq n
  have hbefore : yearStart (-262144) = -95746130 := rfl
  have hlast : yearStart 262142 = 95745399 := rfl
  have hafter : yearStart (262142 + 1) = 95745764 := rfl
  have hepoch : epoch = 719468 := rfl
  have hfirst : -262144 ≤ yearOf (n + epoch) := le_yearOf (by omega)
  have hend : yearOf (n + epoch) ≤ 262142 := yearOf_le (by omega)
  rw [hdate]
  generalize yearOf (n + epoch) = y at *
  obtain ⟨m, hm⟩ : ∃ m, m = (5 * day + 2) / 153 := ⟨_, rfl⟩
  -- The first March-year counts from January on only, the last one up to December.
  by_cases h : m < 10
  · rw [ofDay_early hm h]
    refine ⟨?_, hend⟩
    dsimp only
    by_contra hlt
    obtain rfl : y = -262144 := by omega
    omega
  · rw [ofDay_late hm h]
    refine ⟨by dsimp only; omega, ?_⟩
    by_contra hlt
    obtain rfl : y = 262142 := by dsimp only at hlt; omega
    omega

end Multicloud.Date
