import Multicloud.Proofs.Text.Numeral
import Multicloud.Proofs.Time.Calendar

namespace Multicloud.Instant

open Text (digitsOfWidth)

section Parts

variable {width n : Nat} {s rest : List Char}

theorem trimStart_cons {c : Char} (h : Text.isBlank c = false) (rest : List Char) :
    Text.trimStart (c :: rest) = c :: rest := by
  rw [Text.trimStart, List.dropWhile_cons_of_neg (by simp [h])]

theorem isBlank_of_isDigit {c : Char} (h : c.isDigit = true) : Text.isBlank c = false := by
  simp only [Char.isDigit, Bool.and_eq_true, decide_eq_true_eq] at h
  have hlow : '0'.toNat ≤ c.toNat := UInt32.le_iff_toNat_le.1 h.1
  have hhigh : c.toNat ≤ '9'.toNat := UInt32.le_iff_toNat_le.1 h.2
  have hzero : '0'.toNat = 48 := rfl
  have hnine : '9'.toNat = 57 := rfl
  simp only [Text.isBlank, Bool.or_eq_false_iff, Bool.and_eq_false_iff, decide_eq_false_iff_not]
  omega

theorem isDigit_eq : isDigit = Char.isDigit := rfl

def Ends (rest : List Char) : Prop := ∀ c, rest.head? = some c → c.isDigit = false

theorem ends_cons {c : Char} (h : c.isDigit = false) (rest : List Char) : Ends (c :: rest) := by
  intro d hd
  exact Option.some.inj hd ▸ h

theorem Ends.not_isDigit {c : Char} (h : Ends (c :: rest)) : ¬ c.isDigit = true := by
  rw [h c rfl]
  exact Bool.false_ne_true

theorem takeWhile_of_ends (h : Ends rest) (k : Nat) :
    (rest.take k).takeWhile Char.isDigit = [] := by
  cases rest with
  | nil => simp
  | cons c rest =>
    cases k with
    | zero => simp
    | succ k => rw [List.take_succ_cons, List.takeWhile_cons_of_neg h.not_isDigit]

theorem numeral_append (hd : ∀ c ∈ s, c.isDigit = true) (hne : s ≠ []) (hle : s.length ≤ width)
    (hrest : s.length = width ∨ Ends rest) :
    numeral width (s ++ rest) = some (Nat.ofDigitChars 10 s 0, rest) := by
  have htail : (rest.take (width - s.length)).takeWhile Char.isDigit = [] := by
    rcases hrest with hw | hrest
    · rw [hw, Nat.sub_self, List.take_zero, List.takeWhile_nil]
    · exact takeWhile_of_ends hrest _
  have htake : ((s ++ rest).take width).takeWhile Char.isDigit = s := by
    rw [List.take_append, List.take_of_length_le hle, List.takeWhile_append_of_pos hd, htail,
      List.append_nil]
  simp only [numeral, isDigit_eq, htake, Text.readNat_of_isDigit hne hd, Option.map_some,
    List.drop_left]

theorem numeral_digitsOfWidth (width : Nat) {k : Nat} (hw : 0 < width) (h : n < 10 ^ width)
    (hk : width ≤ k) (hrest : width = k ∨ Ends rest) :
    numeral k (digitsOfWidth width n ++ rest) = some (n, rest) := by
  have hlength := Text.length_digitsOfWidth hw h
  rw [numeral_append (fun c ↦ Text.isDigit_of_mem_digitsOfWidth)
    (Text.digitsOfWidth_ne_nil width n) (by omega) (hrest.imp_left (hlength.trans ·)),
    Text.ofDigitChars_digitsOfWidth]

theorem trimStart_digitsOfWidth (width n : Nat) (rest : List Char) :
    Text.trimStart (digitsOfWidth width n ++ rest) = digitsOfWidth width n ++ rest := by
  obtain ⟨c, s, hs⟩ := List.exists_cons_of_ne_nil (Text.digitsOfWidth_ne_nil width n)
  have hc : c.isDigit = true := Text.isDigit_of_mem_digitsOfWidth (hs ▸ List.mem_cons_self)
  rw [hs, List.cons_append, trimStart_cons (isBlank_of_isDigit hc)]

theorem part_two (h : n < 100) (rest : List Char) : part (two n ++ rest) = some (n, rest) := by
  have hn : n < 10 ^ 2 := by omega
  rw [part, two, trimStart_digitsOfWidth]
  exact numeral_digitsOfWidth 2 (by decide) hn (by decide) (.inl rfl)

theorem partAfter_two {c : Char} (hc : Text.isBlank c = false) (h : n < 100) (rest : List Char) :
    partAfter c (c :: (two n ++ rest)) = some (n, rest) := by
  rw [partAfter, trimStart_cons hc, literal, if_pos rfl, Option.bind_eq_bind, Option.bind_some,
    part_two h]

theorem year_minus (rest : List Char) :
    year ('-' :: rest) = (numeral rest.length rest).map fun (n, s) ↦ (-n, s) := rfl

theorem year_plus (rest : List Char) :
    year ('+' :: rest) = (numeral rest.length rest).map fun (n, s) ↦ (n, s) := rfl

theorem year_yearText (y : Int) (rest : List Char) :
    year (yearText y ++ '-' :: rest) = some (y, '-' :: rest) := by
  have hrest : Ends ('-' :: rest) := ends_cons rfl rest
  -- A year with a sign is read up to what is no digit.
  have hsigned (n : Nat) : numeral (digitsOfWidth 4 n ++ '-' :: rest).length
      (digitsOfWidth 4 n ++ '-' :: rest) = some (n, '-' :: rest) := by
    rw [numeral_append (fun c ↦ Text.isDigit_of_mem_digitsOfWidth)
      (Text.digitsOfWidth_ne_nil 4 n) (by simp) (.inr hrest), Text.ofDigitChars_digitsOfWidth]
  unfold yearText
  by_cases hfour : 0 ≤ y ∧ y ≤ 9999
  · rw [if_pos hfour, year, trimStart_digitsOfWidth]
    have hread : numeral 4 (digitsOfWidth 4 y.toNat ++ '-' :: rest) =
        some (y.toNat, '-' :: rest) :=
      numeral_digitsOfWidth 4 (by decide) (by omega) (by decide) (.inl rfl)
    obtain ⟨c, s, hs⟩ := List.exists_cons_of_ne_nil (Text.digitsOfWidth_ne_nil 4 y.toNat)
    have hc : c.isDigit = true := Text.isDigit_of_mem_digitsOfWidth (hs ▸ List.mem_cons_self)
    rw [hs, List.cons_append] at hread ⊢
    split
    · next h =>
      obtain ⟨rfl, -⟩ := List.cons.inj h
      cases hc
    · next h =>
      obtain ⟨rfl, -⟩ := List.cons.inj h
      cases hc
    · rw [hread, Option.map_some]
      simp [hfour.1]
  · rw [if_neg hfour]
    split
    · next hneg =>
      rw [List.cons_append, year_minus, hsigned, Option.map_some]
      simp only [Option.some.injEq, Prod.mk.injEq, and_true]
      omega
    · next hneg =>
      rw [List.cons_append, year_plus, hsigned, Option.map_some]
      simp only [Option.some.injEq, Prod.mk.injEq, and_true]
      omega

theorem fraction_digitsOfWidth (width : Nat) (hw : 0 < width) (hle : width ≤ 9) (h : n < 10 ^ width)
    (hrest : Ends rest) :
    fraction ('.' :: (digitsOfWidth width n ++ rest)) = some (n * 10 ^ (9 - width), rest) := by
  have hdrop : rest.dropWhile Char.isDigit = rest := by
    cases rest with
    | nil => rfl
    | cons c rest => rw [List.dropWhile_cons_of_neg hrest.not_isDigit]
  have hlength : (digitsOfWidth width n ++ rest).length - rest.length = width := by
    rw [List.length_append, Text.length_digitsOfWidth hw h, Nat.add_sub_cancel]
  rw [fraction, numeral_digitsOfWidth width hw h hle (.inr hrest)]
  simp only [Option.bind_eq_bind, Option.bind_some, hlength, isDigit_eq, hdrop]
  rfl

theorem fraction_fractionText {nanos : Nat} (h : nanos < second) {c : Char}
    (hc : c.isDigit = false) (hdot : c ≠ '.') (rest : List Char) :
    fraction (fractionText nanos ++ c :: rest) = some (nanos, c :: rest) := by
  have hrest : Ends (c :: rest) := ends_cons hc rest
  unfold second at h
  unfold fractionText
  split
  · next hzero =>
    rw [List.nil_append, fraction, hzero]
    exact fun rest he ↦ hdot (List.cons.inj he).1
  split
  · rw [List.cons_append, fraction_digitsOfWidth _ (by decide) (by decide) (by omega) hrest]
    simp only [Option.some.injEq, Prod.mk.injEq, and_true]
    omega
  split
  · rw [List.cons_append, fraction_digitsOfWidth _ (by decide) (by decide) (by omega) hrest]
    simp only [Option.some.injEq, Prod.mk.injEq, and_true]
    omega
  · rw [List.cons_append, fraction_digitsOfWidth _ (by decide) (by decide) (by omega) hrest]
    simp

end Parts

theorem toList_text (t : Instant) {date : Date} (hd : date = Date.ofNumber (t.seconds / 86400))
    {n : Nat} (hn : n = (t.seconds % 86400).toNat) :
    t.text.toList = yearText date.year ++ '-' :: (two date.month ++ '-' :: (two date.day ++
      'T' :: (two (n / 3600) ++ ':' :: (two (n / 60 % 60) ++
        ':' :: (two (n % 60 + t.nanos / second) ++
          (fractionText (t.nanos % second) ++ ['Z'])))))) := by
  simp [text, clockText, hd, hn]

theorem seconds_spec (t : Instant) {n : Nat} (hn : n = (t.seconds % 86400).toNat) :
    n % 60 + t.nanos / second ≤ 60 ∧ (n % 60 + t.nanos / second) / 60 = t.nanos / second := by
  have hnanos := t.nanos_lt
  unfold second at *
  omega

theorem of?_self (t : Instant) : of? t.seconds t.nanos = some t := by
  rw [of?, dif_pos ⟨t.seconds_mem, t.nanos_lt⟩]

/-- A time is read back from its text, leap seconds and years of any length included. -/
theorem ofText?_text (t : Instant) : ofText? t.text = some t := by
  obtain ⟨date, hd⟩ : ∃ date, date = Date.ofNumber (t.seconds / 86400) := ⟨_, rfl⟩
  obtain ⟨n, hn⟩ : ∃ n, n = (t.seconds % 86400).toNat := ⟨_, rfl⟩
  have hvalid : date.isValid = true := hd ▸ Date.isValid_ofNumber _
  have hnumber : date.number = t.seconds / 86400 := hd ▸ Date.number_ofNumber _
  have hyear : isYear date.year = true := by
    have hmem := t.seconds_mem
    unfold first last at hmem
    obtain ⟨hlow, hhigh⟩ := Date.year_ofNumber (n := t.seconds / 86400) (by omega) (by omega)
    rw [← hd] at hlow hhigh
    simp [isYear, hlow, hhigh]
  obtain ⟨hsecond, hleap⟩ := seconds_spec t hn
  have hmonth : date.month < 100 ∧ date.day < 100 := by
    simp only [Date.isValid, Bool.and_eq_true, decide_eq_true_eq] at hvalid
    have hlength : Date.monthLength date.year date.month ≤ 31 := by
      unfold Date.monthLength
      split
      · split <;> decide
      · split <;> decide
    omega
  have hnanos : t.nanos % second < second := Nat.mod_lt _ (by decide)
  rw [ofText?, toList_text t hd hn, Option.bind_eq_bind, year_yearText, Option.bind_some]
  dsimp only
  rw [Option.bind_eq_bind, partAfter_two (by decide) hmonth.1, Option.bind_some]
  dsimp only
  rw [Option.bind_eq_bind, partAfter_two (by decide) hmonth.2, Option.bind_some]
  have hhour : n / 3600 < 100 := by omega
  have hminute : n / 60 % 60 < 100 := by omega
  simp only [part_two hhour, partAfter_two (c := ':') (by decide) hminute, Option.bind_some,
    partAfter_two (c := ':') (by decide) (Nat.lt_of_le_of_lt hsecond (by decide)),
    fraction_fractionText hnanos (c := 'Z') rfl (by decide)]
  have hzone : zone (Text.trimStart ['Z']) = some (0, []) := rfl
  have hempty : (Text.trimStart []).isEmpty = true := rfl
  have hchecks : (isYear date.year && (Date.mk date.year date.month date.day).isValid &&
      decide (n / 3600 < 24) && decide (n / 60 % 60 < 60) &&
      decide (n % 60 + t.nanos / second ≤ 60)) = true := by
    have hhours : n / 3600 < 24 := by omega
    have hminutes : n / 60 % 60 < 60 := by omega
    simp only [hyear, hvalid, hhours, hminutes, hsecond, decide_true, Bool.and_self]
  have hseconds : date.number * 86400 + ↑(n / 3600) * 3600 + ↑(n / 60 % 60) * 60 +
      (↑(n % 60 + t.nanos / second) - ↑(t.nanos / second)) - 0 * 60 = t.seconds := by
    rw [hnumber]
    omega
  have hrest : t.nanos % second + t.nanos / second * second = t.nanos := Nat.mod_add_div' _ _
  simp only [hzone, Option.bind_some, hempty, hchecks, hleap, hseconds, hrest, of?_self]
  simp

end Multicloud.Instant
