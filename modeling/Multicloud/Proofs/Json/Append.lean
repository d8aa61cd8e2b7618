import Mathlib.Data.List.TakeDrop
import Multicloud.Proofs.Json.Written
import Multicloud.Text.Blank

namespace Multicloud.Json

variable {s rest w ds : List Char} {n m : Nat}

theorem skip_append (h : skip s ≠ []) (t : List Char) : skip (s ++ t) = skip s ++ t := by
  have he : (s.dropWhile isBlank).isEmpty = false := by simpa [skip] using h
  rw [skip, List.dropWhile_append, he]
  rfl

theorem skip_append_of_skip (h : skip s = []) (t : List Char) : skip (s ++ t) = skip t := by
  have he : (s.dropWhile isBlank).isEmpty = true := by simpa [skip] using h
  rw [skip, List.dropWhile_append, he]
  rfl

theorem inside_append (h : inside s = some (w, rest)) (t : List Char) :
    inside (s ++ t) = some (w, rest ++ t) := by
  fun_induction inside s generalizing w with
  | case1 => cases h
  | case2 s =>
    cases h
    rfl
  | case3 a b c d s hhex ih =>
    obtain ⟨⟨w', s'⟩, hs, he⟩ := Option.map_eq_some_iff.1 h
    cases he
    exact inside_hex hhex (ih hs)
  | case4 => cases h
  | case5 c s hne hshort ih =>
    obtain ⟨⟨w', s'⟩, hs, he⟩ := Option.map_eq_some_iff.1 h
    cases he
    apply inside_short _ hshort (ih hs)
    intro hu
    subst hu
    exact absurd hshort (by decide)
  | case6 => cases h
  | case7 => cases h
  | case8 c s hquote _ _ hc ih =>
    obtain ⟨⟨w', s'⟩, hs, he⟩ := Option.map_eq_some_iff.1 h
    cases he
    rw [Bool.or_eq_true, decide_eq_true_eq, decide_eq_true_eq, not_or] at hc
    exact inside_plain hquote hc.2 hc.1 (ih hs)

theorem name_append (h : name s = some (w, rest)) (t : List Char) :
    name (s ++ t) = some (w, rest ++ t) := by
  unfold name at h
  split at h
  · next s₁ hquote =>
    obtain ⟨⟨k, s₂⟩, hinside, h⟩ := Option.bind_eq_some_iff.1 h
    dsimp only at h
    split at h
    · next s₃ hcolon =>
      cases h
      have hskip := skip_append (s := s) (by simp [hquote]) t
      have hskip' := skip_append (s := s₂) (by simp [hcolon]) t
      simp [name, hskip, hquote, inside_append hinside, hskip', hcolon]
    · cases h
  · cases h

section Numbers

theorem digits_append (h : (digits s).2 ≠ []) (t : List Char) :
    digits (s ++ t) = ((digits s).1, (digits s).2 ++ t) := by
  simp only [digits, List.span_eq_takeWhile_dropWhile] at h ⊢
  induction s with
  | nil => exact absurd rfl h
  | cons c s ih =>
    by_cases hc : isDigit c = true
    · simp only [List.dropWhile_cons, hc, if_true] at h
      simpa [hc] using ih h
    · simp [hc]

theorem someDigits_append (h : someDigits s = some (ds, rest)) (hrest : rest ≠ []) (t : List Char) :
    someDigits (s ++ t) = some (ds, rest ++ t) := by
  unfold someDigits at h
  split at h
  · cases h
  · next ds' rest' hne hdigits =>
    cases h
    have happ := digits_append (s := s) (by rwa [hdigits]) t
    rw [hdigits] at happ
    cases ds with
    | nil => exact (hne rfl).elim
    | cons d ds => simp [someDigits, happ]

theorem head_of_someDigits (h : someDigits s = some (ds, rest)) :
    ∃ c s', s = c :: s' ∧ isDigit c = true := by
  cases s with
  | nil => cases h
  | cons c s =>
    by_cases hc : isDigit c = true
    · exact ⟨c, s, rfl, hc⟩
    · simp [someDigits, digits, List.span_eq_takeWhile_dropWhile, hc] at h

theorem whole_append (h : whole s = some (ds, rest)) (hrest : rest ≠ []) (t : List Char) :
    whole (s ++ t) = some (ds, rest ++ t) := by
  unfold whole at h
  split at h
  · next s' =>
    split at h
    · cases h
    · next hdigit =>
      cases h
      cases rest with
      | nil => exact absurd rfl hrest
      | cons c rest =>
        have hc : isDigit c = false := by simpa using hdigit
        simp [whole, hc]
  · next hne =>
    have happ := someDigits_append h hrest t
    obtain ⟨c, s', rfl, -⟩ := head_of_someDigits h
    rw [whole.eq_def]
    split
    · next he =>
      cases he
      exact (hne _ rfl).elim
    · exact happ

theorem fraction_append (h : fraction s = some (ds, rest)) (hrest : rest ≠ []) (t : List Char) :
    fraction (s ++ t) = some (ds, rest ++ t) := by
  unfold fraction at h
  split at h
  · obtain ⟨⟨ds', s'⟩, hd, he⟩ := Option.map_eq_some_iff.1 h
    cases he
    simp [fraction, someDigits_append hd hrest t]
  · next hne =>
    cases h
    cases s with
    | nil => exact absurd rfl hrest
    | cons c s =>
      rw [fraction.eq_def]
      split
      · next he =>
        cases he
        exact (hne _ rfl).elim
      · rfl

theorem exponent_append (h : exponent s = some (ds, rest)) (hrest : rest ≠ []) (t : List Char) :
    exponent (s ++ t) = some (ds, rest ++ t) := by
  unfold exponent at h
  split at h
  · next e s' =>
    split at h
    · next he =>
      split at h
      · next sign s'' =>
        split at h
        · next hsign =>
          obtain ⟨⟨ds', r⟩, hd, heq⟩ := Option.map_eq_some_iff.1 h
          cases heq
          simp [exponent, he, hsign, someDigits_append hd hrest t]
        · next hsign =>
          obtain ⟨⟨ds', r⟩, hd, heq⟩ := Option.map_eq_some_iff.1 h
          cases heq
          have happ := someDigits_append hd hrest t
          rw [List.cons_append] at happ
          simp [exponent, he, hsign, happ]
      · cases h
    · next he =>
      cases h
      simp [exponent, he]
  · cases h
    exact absurd rfl hrest

theorem ne_nil_of_fraction (h : fraction s = some (ds, rest)) (hrest : rest ≠ []) : s ≠ [] := by
  intro hs
  subst hs
  cases h
  exact hrest rfl

theorem ne_nil_of_exponent (h : exponent s = some (ds, rest)) (hrest : rest ≠ []) : s ≠ [] := by
  intro hs
  subst hs
  cases h
  exact hrest rfl

theorem unsigned_append (h : unsigned s = some (w, rest)) (hrest : rest ≠ []) (t : List Char) :
    unsigned (s ++ t) = some (w, rest ++ t) := by
  obtain ⟨⟨n, s₁⟩, hwhole, h⟩ := Option.bind_eq_some_iff.1 h
  obtain ⟨⟨f, s₂⟩, hfraction, h⟩ := Option.bind_eq_some_iff.1 h
  obtain ⟨⟨e, s₃⟩, hexponent, h⟩ := Option.bind_eq_some_iff.1 h
  cases h
  have hrest₂ := ne_nil_of_exponent hexponent hrest
  have hrest₁ := ne_nil_of_fraction hfraction hrest₂
  simp [unsigned, whole_append hwhole hrest₁ t, fraction_append hfraction hrest₂ t,
    exponent_append hexponent hrest t]

theorem head_of_unsigned (h : unsigned s = some (w, rest)) :
    ∃ c s', s = c :: s' ∧ isDigit c = true := by
  obtain ⟨⟨n, s₁⟩, hwhole, -⟩ := Option.bind_eq_some_iff.1 h
  unfold whole at hwhole
  split at hwhole
  · exact ⟨'0', _, rfl, rfl⟩
  · exact head_of_someDigits hwhole

theorem head_of_number (h : number s = some (w, rest)) :
    ∃ c s', s = c :: s' ∧ (c = '-' ∨ isDigit c = true) := by
  unfold number at h
  split at h
  · exact ⟨'-', _, rfl, .inl rfl⟩
  · obtain ⟨c, s', hs, hc⟩ := head_of_unsigned h
    exact ⟨c, s', hs, .inr hc⟩

theorem number_append (h : number s = some (w, rest)) (hrest : rest ≠ []) (t : List Char) :
    number (s ++ t) = some (w, rest ++ t) := by
  unfold number at h
  split at h
  · obtain ⟨⟨w', s'⟩, hu, he⟩ := Option.map_eq_some_iff.1 h
    cases he
    simp [number, unsigned_append hu hrest t]
  · next hne =>
    have happ := unsigned_append h hrest t
    obtain ⟨c, s', rfl, -⟩ := head_of_unsigned h
    rw [number.eq_def]
    split
    · next he =>
      cases he
      exact (hne _ rfl).elim
    · exact happ

end Numbers

/-- A value that shows its own end. A number goes on as long as there are digits. -/
def Value.IsClosed : Value → Prop
  | .number _ => False
  | _ => True

/-- What readers with so many steps find is found before any text, given as many steps or more. -/
structure Settled (n : Nat) : Prop where
  value {s rest : List Char} {v : Value} (h : value n s = some (v, rest))
    (hv : v.IsClosed ∨ rest ≠ []) {m : Nat} (hm : n ≤ m) (t : List Char) :
    value m (s ++ t) = some (v, rest ++ t)
  items {s rest : List Char} {vs : List Value} (h : items n s = some (vs, rest)) {m : Nat}
    (hm : n ≤ m) (t : List Char) : items m (s ++ t) = some (vs, rest ++ t)
  entries {s rest : List Char} {es : List (List Char × Value)} (h : entries n s = some (es, rest))
    {m : Nat} (hm : n ≤ m) (t : List Char) : entries m (s ++ t) = some (es, rest ++ t)

theorem ne_nil_of_items {vs : List Value} (h : items n s = some (vs, rest)) : s ≠ [] := by
  intro hs
  subst hs
  cases n <;> cases h

theorem ne_nil_of_entries {es : List (List Char × Value)} (h : entries n s = some (es, rest)) :
    s ≠ [] := by
  intro hs
  subst hs
  cases n <;> cases h

theorem ne_nil_of_value {v : Value} (h : value n s = some (v, rest)) : s ≠ [] := by
  intro hs
  subst hs
  cases n <;> cases h

theorem ne_nil_of_name (h : name s = some (w, rest)) : s ≠ [] := by
  intro hs
  subst hs
  cases h

theorem ne_cons_append {c : Char} (hs : s ≠ []) (h : ∀ r, s = c :: r → False) (t : List Char) :
    ∀ r, s ++ t ≠ c :: r := by
  intro r he
  cases s with
  | nil => exact hs rfl
  | cons d s =>
    cases he
    exact h s rfl

theorem items_append (ih : Settled n) {vs : List Value} (h : items (n + 1) s = some (vs, rest))
    (hm : n + 1 ≤ m) (t : List Char) : items m (s ++ t) = some (vs, rest ++ t) := by
  obtain ⟨m, rfl⟩ := Nat.exists_eq_add_of_le' (Nat.le_trans (Nat.le_add_left 1 n) hm)
  have hm : n ≤ m := Nat.le_of_succ_le_succ hm
  rw [items] at h
  split at h
  · next s₁ hclose =>
    cases h
    simp [items, skip_append (s := s) (by simp [hclose]), hclose]
  · next s₁ hcomma =>
    obtain ⟨⟨v, s₂⟩, hvalue, h⟩ := Option.bind_eq_some_iff.1 h
    obtain ⟨⟨vs', s₃⟩, hitems, h⟩ := Option.bind_eq_some_iff.1 h
    cases h
    have hvalue := ih.value hvalue (.inr (ne_nil_of_items hitems)) hm t
    have hitems := ih.items hitems hm t
    simp [items, skip_append (s := s) (by simp [hcomma]), hcomma, hvalue, hitems]
  · cases h

theorem entries_append (ih : Settled n) {es : List (List Char × Value)}
    (h : entries (n + 1) s = some (es, rest)) (hm : n + 1 ≤ m) (t : List Char) :
    entries m (s ++ t) = some (es, rest ++ t) := by
  obtain ⟨m, rfl⟩ := Nat.exists_eq_add_of_le' (Nat.le_trans (Nat.le_add_left 1 n) hm)
  have hm : n ≤ m := Nat.le_of_succ_le_succ hm
  rw [entries] at h
  split at h
  · next s₁ hclose =>
    cases h
    simp [entries, skip_append (s := s) (by simp [hclose]), hclose]
  · next s₁ hcomma =>
    obtain ⟨⟨k, s₂⟩, hname, h⟩ := Option.bind_eq_some_iff.1 h
    obtain ⟨⟨v, s₃⟩, hvalue, h⟩ := Option.bind_eq_some_iff.1 h
    obtain ⟨⟨es', s₄⟩, hentries, h⟩ := Option.bind_eq_some_iff.1 h
    cases h
    have hname := name_append hname t
    have hvalue := ih.value hvalue (.inr (ne_nil_of_entries hentries)) hm t
    have hentries := ih.entries hentries hm t
    simp [entries, skip_append (s := s) (by simp [hcomma]), hcomma, hname, hvalue, hentries]
  · cases h

theorem value_of_head {p : Char → Bool} {c : Char} {s₁ : List Char} (hs : skip s = c :: s₁)
    (hc : p c = true) (hp : ['n', 't', 'f', '"', '[', '\x7b'].any p = false) :
    value (n + 1) s = (number (c :: s₁)).map fun (w, s) ↦ (.number w, s) := by
  rw [value, hs]
  split
  iterate 6
    · next he =>
      obtain rfl := (List.cons.inj he).1
      exact absurd hc (List.any_eq_false.1 hp _ (by decide))
  · rfl

theorem value_append (ih : Settled n) {v : Value} (h : value (n + 1) s = some (v, rest))
    (hv : v.IsClosed ∨ rest ≠ []) (hm : n + 1 ≤ m) (t : List Char) :
    value m (s ++ t) = some (v, rest ++ t) := by
  obtain ⟨m, rfl⟩ := Nat.exists_eq_add_of_le' (Nat.le_trans (Nat.le_add_left 1 n) hm)
  have hm : n ≤ m := Nat.le_of_succ_le_succ hm
  rw [value] at h
  split at h
  · next hs =>
    cases h
    simp [value, skip_append (s := s) (by simp [hs]), hs]
  · next hs =>
    cases h
    simp [value, skip_append (s := s) (by simp [hs]), hs]
  · next hs =>
    cases h
    simp [value, skip_append (s := s) (by simp [hs]), hs]
  · next hs =>
    obtain ⟨⟨w, s'⟩, hinside, he⟩ := Option.map_eq_some_iff.1 h
    cases he
    simp [value, skip_append (s := s) (by simp [hs]), hs, inside_append hinside]
  · next s₁ hs =>
    have hskip := skip_append (s := s) (by simp [hs]) t
    split at h
    · next hclose =>
      cases h
      have hskip₁ := skip_append (s := s₁) (by simp [hclose]) t
      simp [value, hskip, hs, hskip₁, hclose]
    · next hne =>
      obtain ⟨⟨v', s₂⟩, hvalue, h⟩ := Option.bind_eq_some_iff.1 h
      obtain ⟨⟨vs, s₃⟩, hitems, h⟩ := Option.bind_eq_some_iff.1 h
      cases h
      have hskip₁ := skip_append (ne_nil_of_value hvalue) t
      have hne : ∀ r, skip s₁ ++ t ≠ ']' :: r := ne_cons_append (ne_nil_of_value hvalue) hne t
      have hvalue := ih.value hvalue (.inr (ne_nil_of_items hitems)) hm t
      have hitems := ih.items hitems hm t
      simp [value, hskip, hs, hskip₁, hvalue, hitems]
  · next s₁ hs =>
    have hskip := skip_append (s := s) (by simp [hs]) t
    split at h
    · next hclose =>
      cases h
      have hskip₁ := skip_append (s := s₁) (by simp [hclose]) t
      simp [value, hskip, hs, hskip₁, hclose]
    · next hne =>
      obtain ⟨⟨k, s₂⟩, hname, h⟩ := Option.bind_eq_some_iff.1 h
      obtain ⟨⟨v', s₃⟩, hvalue, h⟩ := Option.bind_eq_some_iff.1 h
      obtain ⟨⟨es, s₄⟩, hentries, h⟩ := Option.bind_eq_some_iff.1 h
      cases h
      have hname' := name_append hname t
      have hskip₁ := skip_append (ne_nil_of_name hname) t
      have hne : ∀ r, skip s₁ ++ t ≠ '\x7d' :: r := ne_cons_append (ne_nil_of_name hname) hne t
      have hvalue := ih.value hvalue (.inr (ne_nil_of_entries hentries)) hm t
      have hentries := ih.entries hentries hm t
      simp [value, hskip, hs, hskip₁, hname', hvalue, hentries]
  · next hs =>
    obtain ⟨⟨w, s'⟩, hnumber, he⟩ := Option.map_eq_some_iff.1 h
    cases he
    have hrest : rest ≠ [] := hv.resolve_left id
    obtain ⟨c, s₁, hs₁, hc⟩ := head_of_number hnumber
    have happ := number_append hnumber hrest t
    have hskip := skip_append (s := s) (by simp [hs₁]) t
    rw [hs₁, List.cons_append] at happ hskip
    have hc : (c == '-' || isDigit c) = true := by simpa using hc
    rw [value_of_head (p := fun c ↦ c == '-' || isDigit c) hskip hc rfl, happ]
    rfl

theorem settled (n : Nat) : Settled n := by
  induction n with
  | zero => exact ⟨fun h ↦ (by cases h), fun h ↦ (by cases h), fun h ↦ (by cases h)⟩
  | succ n ih => exact
    ⟨fun h hv _ hm ↦ value_append ih h hv hm, fun h _ hm ↦ items_append ih h hm,
      fun h _ hm ↦ entries_append ih h hm⟩

theorem Value.ofText?_eq_some {v : Value} :
    Value.ofText? s = some v ↔
      ∃ rest, value (s.length + 1) s = some (v, rest) ∧ skip rest = [] := by
  unfold Value.ofText?
  cases value (s.length + 1) s with
  | none => simp
  | some r =>
    obtain ⟨v', rest⟩ := r
    simp [and_comm]

theorem Value.ofText?_append_eq_none {v : Value} (h : Value.ofText? s = some v) (hv : v.IsClosed)
    {t : List Char} (ht : skip t ≠ []) : Value.ofText? (s ++ t) = none := by
  obtain ⟨rest, hvalue, hblank⟩ := Value.ofText?_eq_some.1 h
  have hlength : s.length + 1 ≤ (s ++ t).length + 1 := by simp
  have hvalue := (settled _).value hvalue (.inl hv) hlength t
  rw [Option.eq_none_iff_forall_ne_some]
  intro v' hv'
  obtain ⟨rest', hvalue', hblank'⟩ := Value.ofText?_eq_some.1 hv'
  obtain ⟨rfl, rfl⟩ := Prod.mk.inj (Option.some.inj (hvalue.symm.trans hvalue'))
  rw [skip_append_of_skip hblank] at hblank'
  exact ht hblank'

/-- Blanks in front of a closed value do not matter. -/
theorem Value.ofText?_blanks_append {v : Value} (h : Value.ofText? s = some v) (hv : v.IsClosed)
    {blanks : List Char} (hblanks : skip blanks = []) : Value.ofText? (blanks ++ s) = some v := by
  obtain ⟨rest, hvalue, hblank⟩ := Value.ofText?_eq_some.1 h
  have hlength : s.length + 1 ≤ (blanks ++ s).length + 1 := by simp
  have hvalue := (settled _).value hvalue (.inl hv) hlength []
  rw [List.append_nil, List.append_nil, value, ← skip_append_of_skip hblanks s, ← value] at hvalue
  exact Value.ofText?_eq_some.2 ⟨rest, hvalue, hblank⟩

theorem Value.ofText?_eq_none_of_blank {c : Char} {s₁ : List Char} (hs : skip s = c :: s₁)
    (hc : Text.isBlank c = true) : Value.ofText? s = none := by
  have hnumber : Json.number (c :: s₁) = none := by
    rw [Option.eq_none_iff_forall_ne_some]
    intro r hr
    obtain ⟨d, s', hd, hcases⟩ := head_of_number hr
    obtain rfl := (List.cons.inj hd).1
    rcases hcases with rfl | hdigit
    · exact absurd hc (by decide)
    · simp only [isDigit, Text.isBlank, Bool.and_eq_true, Bool.or_eq_true, decide_eq_true_eq,
        Char.le_def, UInt32.le_iff_toNat_le] at hdigit hc
      have hlow : 48 ≤ c.toNat := hdigit.1
      have hhigh : c.toNat ≤ 57 := hdigit.2
      omega
  have hvalue : value (s.length + 1) s = none := by
    rw [value_of_head hs hc rfl, hnumber]
    rfl
  rw [Value.ofText?, hvalue]

end Multicloud.Json
