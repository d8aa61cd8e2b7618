import Mathlib.Algebra.Group.Int.Defs
import Mathlib.Algebra.Group.Nat.Defs
import Multicloud.Proofs.Digest
import Multicloud.Time.Instant

namespace Multicloud

namespace Text

variable {width m n : Nat}

theorem hexDigit_inj : hexDigit m = hexDigit n ↔ m % 16 = n % 16 := by
  have hdigit : ∀ j < 16, ∀ k < 16, Nat.digitChar j = Nat.digitChar k → j = k := by decide
  constructor
  · intro h
    exact hdigit _ (Nat.mod_lt m (by decide)) _ (Nat.mod_lt n (by decide)) h
  · intro h
    rw [hexDigit, h, hexDigit]

theorem hexOfWidth_inj :
    hexOfWidth width m = hexOfWidth width n ↔ m % 16 ^ width = n % 16 ^ width := by
  induction width generalizing m n with
  | zero => simp only [hexOfWidth, Nat.pow_zero, Nat.mod_one]
  | succ width ih =>
    rw [hexOfWidth, hexOfWidth, Nat.pow_succ', Nat.mod_mul, Nat.mod_mul]
    constructor
    · intro h
      obtain ⟨hinit, hlast⟩ := List.append_inj' h rfl
      rw [ih.1 hinit, hexDigit_inj.1 (List.singleton_inj.1 hlast)]
    · intro h
      have hlast : m % 16 = n % 16 := by omega
      have hinit : m / 16 % 16 ^ width = n / 16 % 16 ^ width := by omega
      rw [ih.2 hinit, hexDigit_inj.2 hlast]

theorem hexOfWidth_zero (width : Nat) : hexOfWidth width 0 = List.replicate width '0' := by
  induction width with
  | zero => rfl
  | succ width ih =>
    rw [hexOfWidth, Nat.zero_div, ih, List.replicate_succ']
    rfl

theorem hexOfWidth_eq_leftpad (hw : 0 < width) (h : n < 16 ^ width) :
    hexOfWidth width n = List.leftpad width '0' (Nat.toDigits 16 n) := by
  induction width generalizing n with
  | zero => omega
  | succ width ih =>
    rw [hexOfWidth]
    by_cases hn : n < 16
    · rw [Nat.div_eq_of_lt hn, hexOfWidth_zero, hexDigit, Nat.mod_eq_of_lt hn,
        Nat.toDigits_of_lt_base hn]
      rfl
    · have hdiv : n / 16 < 16 ^ width := by
        rw [Nat.pow_succ] at h
        omega
      have hpos : 0 < width := by
        apply Nat.pos_of_ne_zero
        intro hzero
        rw [hzero] at hdiv
        omega
      rw [ih hpos hdiv, Nat.toDigits_of_base_le (by decide) (Nat.le_of_not_lt hn), hexDigit,
        List.leftpad, List.leftpad, List.append_assoc, List.length_append, List.length_singleton,
        Nat.add_sub_add_right]

end Text

namespace Instant

variable {s t : Instant}

def IsCounted (t : Instant) : Prop := -2 ^ 63 ≤ t.count ∧ t.count < 2 ^ 63

instance (t : Instant) : Decidable t.IsCounted := inferInstanceAs (Decidable (_ ∧ _))

theorem shortCount_of_isCounted (h : t.IsCounted) : t.shortCount = t.count := by
  unfold IsCounted at h
  rw [shortCount, if_pos (by omega)]

/-- The bits of the count, in two's complement before 1970. -/
def word (t : Instant) : UInt64 := (Int64.ofInt t.shortCount).toUInt64

theorem toNat_word (t : Instant) : t.word.toNat = (t.shortCount % 2 ^ 64).toNat :=
  BitVec.toNat_ofInt t.shortCount

theorem toNat_word_and (t : Instant) :
    (t.word &&& 0xFFFFFFFFFFFF).toNat = (t.shortCount % runIds).toNat := by
  have hmask : (0xFFFFFFFFFFFF : UInt64).toNat = 2 ^ 48 - 1 := rfl
  rw [UInt64.toNat_and, hmask, Nat.and_two_pow_sub_one_eq_mod, toNat_word]
  unfold runIds
  omega

theorem toList_runId (t : Instant) :
    t.runId.toList = "r-".toList ++ Text.hexOfWidth 12 (t.shortCount % runIds).toNat := by
  simp [runId]

theorem runId_eq_iff : s.runId = t.runId ↔ (2 : Int) ^ 48 ∣ s.shortCount - t.shortCount := by
  have hlist : s.runId = t.runId ↔ Text.hexOfWidth 12 (s.shortCount % runIds).toNat =
      Text.hexOfWidth 12 (t.shortCount % runIds).toNat := by
    rw [← String.toList_inj, toList_runId, toList_runId, List.append_cancel_left_eq]
  rw [hlist, Text.hexOfWidth_inj]
  unfold runIds
  omega

/-- A name shows the lower 48 bits of the count in twelve digits. Where counts are held, two times
share a name exactly when whole rounds of `2 ^ 48` nanoseconds are between them. -/
theorem runId_exact :
    (∀ t : Instant, ∃ digits : List Char, t.runId = "r-" ++ String.ofList digits ∧
      digits.length = 12 ∧ (∀ c ∈ digits, c ∈ "0123456789abcdef".toList) ∧
      digits = List.leftpad 12 '0' (Nat.toDigits 16 (t.word &&& 0xFFFFFFFFFFFF).toNat)) ∧
    ∀ s t : Instant, s.IsCounted → t.IsCounted →
      (s.runId = t.runId ↔ (2 : Int) ^ 48 ∣ s.count - t.count) := by
  constructor
  · intro t
    refine ⟨_, rfl, Text.length_hexOfWidth 12 _, ?_, ?_⟩
    · have hdigit : ∀ k < 16, Nat.digitChar k ∈ "0123456789abcdef".toList := by decide
      intro c hc
      obtain ⟨k, hk, rfl⟩ := Text.mem_hexOfWidth hc
      exact hdigit k hk
    · rw [toNat_word_and]
      apply Text.hexOfWidth_eq_leftpad (by decide)
      unfold runIds
      omega
  · intro s t hs ht
    rw [runId_eq_iff, shortCount_of_isCounted hs, shortCount_of_isCounted ht]

def firstCounted : Instant := ⟨-9223372037, 145224192, by decide, by decide⟩

def lastCounted : Instant := ⟨9223372036, 854775807, by decide, by decide⟩

def beforeEpoch : Instant := ⟨-1, 999999999, by decide, by decide⟩

theorem runId_exact_ends :
    firstCounted.IsCounted ∧ beforeEpoch.IsCounted ∧ lastCounted.IsCounted ∧
      lastCounted.runId = beforeEpoch.runId ∧ lastCounted.runId ≠ firstCounted.runId := by
  have hfirst : firstCounted.IsCounted := by decide
  have hbefore : beforeEpoch.IsCounted := by decide
  have hlast : lastCounted.IsCounted := by decide
  refine ⟨hfirst, hbefore, hlast, ?_, ?_⟩
  · exact (runId_exact.2 lastCounted beforeEpoch hlast hbefore).2 (by decide)
  · intro h
    have hdvd := (runId_exact.2 lastCounted firstCounted hlast hfirst).1 h
    revert hdvd
    decide

end Instant

end Multicloud
