import Multicloud.Json.Reader
import Multicloud.Json.Written

namespace Multicloud.Json

section Escapes

variable {s rest : List Char}

inductive Escaped (c : Char) : List Char → Prop
  | short {d : Char} : d ≠ 'u' → ' ' ≤ d → shortEscape? d = some c → Escaped c ['\\', d]
  | hex : c.toNat < 32 → Escaped c ('\\' :: 'u' :: Text.hexOfWidth 4 c.toNat)
  | plain : c ≠ '"' → c ≠ '\\' → ¬ c < ' ' → Escaped c [c]

theorem escaped_escapeChar (c : Char) : Escaped c (escapeChar c) := by
  unfold escapeChar
  iterate 7
    refine iteInduction (fun hc ↦ .short (by decide) (by decide) (by rw [hc]; rfl)) fun _ ↦ ?_
  exact iteInduction (fun hc ↦ .hex hc) fun _ ↦ .plain ‹_› ‹_› ‹_›

theorem unescape_plain {c : Char} (hc : c ≠ '\\') (h : unescape rest = some s) :
    unescape (c :: rest) = some (c :: s) := by
  rw [unescape.eq_def]
  split
  · next he => cases he
  · next he => exact absurd (List.cons.inj he).1 hc
  · next he => exact absurd (List.cons.inj he).1 hc
  · next he => exact absurd (List.cons.inj he).1 hc
  · next he =>
    cases he
    rw [h]
    rfl

theorem unescape_short {c d : Char} (hc : c ≠ 'u') (hd : shortEscape? c = some d)
    (h : unescape rest = some s) : unescape ('\\' :: c :: rest) = some (d :: s) := by
  rw [unescape.eq_def]
  split
  · next he => cases he
  · next he => exact absurd (List.cons.inj (List.cons.inj he).2).1 hc
  · next he => exact absurd (List.cons.inj (List.cons.inj he).2).1 hc
  · next he =>
    cases he
    rw [hd, h]
    rfl
  · next hne he =>
    cases he
    exact absurd rfl (hne _ _ rfl)

theorem unescape_hex {a b c d : Char} {n : Nat} (hd : hexValue? [a, b, c, d] = some n)
    (hn : n < 0xD800) (h : unescape rest = some s) :
    unescape ('\\' :: 'u' :: a :: b :: c :: d :: rest) = some (Char.ofNat n :: s) := by
  have hlow : ¬ (0xD800 ≤ n ∧ n < 0xE000) := by omega
  rw [unescape.eq_def]
  split
  · next he => cases he
  · next he =>
    cases he
    simp only [hd, Option.bind_eq_bind, Option.bind_some, if_neg hlow, h]
    rfl
  · next he =>
    cases he
    simp only [hd, Option.bind_eq_bind, Option.bind_some, if_neg hlow, h]
    rfl
  · next hne he =>
    cases he
    exact absurd rfl (hne _ _ _ _ _ rfl)
  · next hne he =>
    cases he
    exact absurd rfl (hne _ _ rfl)

theorem hexValue?_hexOfWidth : ∀ n < 32, hexValue? (Text.hexOfWidth 4 n) = some n := by decide

theorem Escaped.unescape_append {c : Char} {w : List Char} (hw : Escaped c w)
    (h : unescape rest = some s) : unescape (w ++ rest) = some (c :: s) := by
  cases hw with
  | short hd _ hc => exact unescape_short hd hc h
  | hex hc =>
    have hread := unescape_hex (hexValue?_hexOfWidth c.toNat hc) (by omega) h
    rwa [Char.ofNat_toNat] at hread
  | plain _ hb _ => exact unescape_plain hb h

theorem unescape_escape (s : List Char) : unescape (escape s) = some s := by
  induction s with
  | nil => rfl
  | cons c s ih =>
    rw [escape, List.flatMap_cons]
    exact (escaped_escapeChar c).unescape_append ih

theorem inside_short {c : Char} {w t : List Char} (hc : c ≠ 'u') (hd : (shortEscape? c).isSome)
    (h : inside rest = some (w, t)) : inside ('\\' :: c :: rest) = some ('\\' :: c :: w, t) := by
  rw [inside.eq_def]
  split
  · next he => cases he
  · next he => exact absurd (List.cons.inj he).1 (by decide)
  · next he => exact absurd (List.cons.inj (List.cons.inj he).2).1 hc
  · next he =>
    cases he
    rw [if_pos hd, h]
    rfl
  · next hne he =>
    cases he
    exact absurd rfl (hne _ _ rfl)

theorem inside_hex {a b c d : Char} {w t : List Char}
    (hd : (isHex a && isHex b && isHex c && isHex d) = true) (h : inside rest = some (w, t)) :
    inside ('\\' :: 'u' :: a :: b :: c :: d :: rest) =
      some ('\\' :: 'u' :: a :: b :: c :: d :: w, t) := by
  rw [inside.eq_def]
  split
  · next he => cases he
  · next he => exact absurd (List.cons.inj he).1 (by decide)
  · next he =>
    cases he
    rw [if_pos hd, h]
    rfl
  · next hne he =>
    cases he
    exact absurd rfl (hne _ _ _ _ _ rfl)
  · next hne he =>
    cases he
    exact absurd rfl (hne _ _ rfl)

theorem inside_plain {c : Char} {w t : List Char} (hq : c ≠ '"') (hb : c ≠ '\\') (hc : ¬ c < ' ')
    (h : inside rest = some (w, t)) : inside (c :: rest) = some (c :: w, t) := by
  rw [inside.eq_def]
  split
  · next he => cases he
  · next he => exact absurd (List.cons.inj he).1 hq
  · next he => exact absurd (List.cons.inj he).1 hb
  · next he => exact absurd (List.cons.inj he).1 hb
  · next he =>
    cases he
    rw [if_neg (by simpa [hb] using hc), h]
    rfl

theorem isHex_hexOfWidth : ∀ n < 32, (Text.hexOfWidth 4 n).all isHex = true := by decide

theorem Escaped.inside_append {c : Char} {e w t : List Char} (he : Escaped c e)
    (h : inside rest = some (w, t)) : inside (e ++ rest) = some (e ++ w, t) := by
  cases he with
  | short hd _ hc => exact inside_short hd (by rw [hc]; rfl) h
  | hex hc =>
    have hhex := isHex_hexOfWidth c.toNat hc
    simp only [Text.hexOfWidth, List.nil_append, List.cons_append, List.all_cons, List.all_nil,
      Bool.and_true, ← Bool.and_assoc] at hhex
    exact inside_hex hhex h
  | plain hq hb hc => exact inside_plain hq hb hc h

theorem inside_escape (s rest : List Char) :
    inside (escape s ++ '"' :: rest) = some (escape s, rest) := by
  induction s with
  | nil => rfl
  | cons c s ih =>
    rw [escape, List.flatMap_cons, List.append_assoc]
    exact (escaped_escapeChar c).inside_append ih

end Escapes

namespace Value

theorem compact_text (w : List Char) : (text w).compact = quoted w := rfl

theorem compact_list_cons (v : Value) (rest : List Value) :
    (list (v :: rest)).compact = '[' :: v.compact ++ compactItems rest := rfl

theorem compact_object_cons (k : List Char) (v : Value) (rest : List (List Char × Value)) :
    (object ((k, v) :: rest)).compact =
      '\x7b' :: quoted k ++ ':' :: v.compact ++ compactEntries rest := rfl

/-- Texts are escaped, and there are no numbers. -/
inductive Tidy : Value → Prop
  | null : Tidy null
  | bool (b : Bool) : Tidy (bool b)
  | text (s : List Char) : Tidy (text (escape s))
  | list {items : List Value} : (∀ v ∈ items, Tidy v) → Tidy (list items)
  | object {entries : List (List Char × Value)} :
      (∀ e ∈ entries, ∃ k, e.1 = escape k) → (∀ e ∈ entries, Tidy e.2) → Tidy (object entries)

theorem Tidy.head_compact {v : Value} (h : Tidy v) :
    ∃ c t, v.compact = c :: t ∧ isBlank c = false ∧ c ≠ ']' := by
  cases h with
  | null => exact ⟨'n', _, rfl, by decide, by decide⟩
  | bool b => cases b <;> exact ⟨_, _, rfl, by decide, by decide⟩
  | text s => exact ⟨'"', _, rfl, by decide, by decide⟩
  | @list items _ => cases items <;> exact ⟨'[', _, rfl, by decide, by decide⟩
  | @object entries _ _ =>
    match entries with
    | [] => exact ⟨'\x7b', _, rfl, by decide, by decide⟩
    | (k, v) :: _ => exact ⟨'\x7b', _, rfl, by decide, by decide⟩

theorem skip_cons {c : Char} (hc : isBlank c = false) (s : List Char) : skip (c :: s) = c :: s := by
  simp [skip, hc]

theorem Tidy.skip_compact {v : Value} (h : Tidy v) (rest : List Char) :
    skip (v.compact ++ rest) = v.compact ++ rest := by
  obtain ⟨c, t, hc, hb, -⟩ := h.head_compact
  rw [hc, List.cons_append, skip_cons hb]

/-- Whether a reader finds a value again before any text, given more steps than it has
characters. -/
def Found (v : Value) : Prop :=
  ∀ fuel rest, v.compact.length < fuel → value fuel (v.compact ++ rest) = some (v, rest)

theorem items_compactItems {vs : List Value} (h : ∀ v ∈ vs, Found v) (fuel : Nat)
    (rest : List Char) (hf : (compactItems vs).length < fuel) :
    items fuel (compactItems vs ++ rest) = some (vs, rest) := by
  induction vs generalizing fuel with
  | nil =>
    obtain ⟨fuel, rfl⟩ := Nat.exists_eq_succ_of_ne_zero (Nat.ne_zero_of_lt hf)
    rfl
  | cons v vs ih =>
    obtain ⟨fuel, rfl⟩ := Nat.exists_eq_succ_of_ne_zero (Nat.ne_zero_of_lt hf)
    simp only [compactItems, List.length_append, List.length_cons] at hf
    simp only [compactItems, List.cons_append, List.append_assoc, items,
      skip_cons (c := ',') (by decide)]
    rw [h v (.head _) fuel _ (by omega)]
    simp only [Option.bind_eq_bind, Option.bind_some]
    rw [ih (fun v hv ↦ h v (.tail _ hv)) fuel (by omega)]
    rfl

theorem name_quoted (k rest : List Char) :
    name (quoted (escape k) ++ ':' :: rest) = some (escape k, rest) := by
  simp only [quoted, List.cons_append, List.append_assoc, name, skip_cons (c := '"') (by decide),
    inside_escape, Option.bind_eq_bind, Option.bind_some]
  rfl

theorem entries_compactEntries {es : List (List Char × Value)}
    (hk : ∀ e ∈ es, ∃ k, e.1 = escape k) (h : ∀ e ∈ es, Found e.2) (fuel : Nat)
    (rest : List Char) (hf : (compactEntries es).length < fuel) :
    entries fuel (compactEntries es ++ rest) = some (es, rest) := by
  induction es generalizing fuel with
  | nil =>
    obtain ⟨fuel, rfl⟩ := Nat.exists_eq_succ_of_ne_zero (Nat.ne_zero_of_lt hf)
    rfl
  | cons e es ih =>
    obtain ⟨fuel, rfl⟩ := Nat.exists_eq_succ_of_ne_zero (Nat.ne_zero_of_lt hf)
    obtain ⟨w, v⟩ := e
    obtain ⟨k, rfl⟩ := hk _ (.head _)
    have hv : Found v := h _ (.head _)
    simp only [compactEntries, List.length_append, List.length_cons] at hf
    simp only [compactEntries, List.cons_append, List.append_assoc, entries,
      skip_cons (c := ',') (by decide), name_quoted, Option.bind_eq_bind, Option.bind_some]
    rw [hv fuel _ (by omega)]
    simp only [Option.bind_some]
    rw [ih (fun e he ↦ hk e (.tail _ he)) (fun e he ↦ h e (.tail _ he)) fuel (by omega)]
    rfl

theorem value_quote (fuel : Nat) (s : List Char) :
    value (fuel + 1) ('"' :: s) = (inside s).map fun (w, s) ↦ (.text w, s) := rfl

theorem value_list {s : List Char} (hs : skip s = s) (hne : s.head? ≠ some ']') (fuel : Nat) :
    value (fuel + 1) ('[' :: s) = do
      let (v, s) ← value fuel s
      let (vs, s) ← items fuel s
      return (.list (v :: vs), s) := by
  simp only [value, skip_cons (c := '[') (by decide), hs]
  split
  · simp at hne
  · rfl

theorem value_object {s : List Char} (hs : skip s = s) (hne : s.head? ≠ some '\x7d') (fuel : Nat) :
    value (fuel + 1) ('\x7b' :: s) = do
      let (k, s) ← name s
      let (v, s) ← value fuel s
      let (es, s) ← entries fuel s
      return (.object ((k, v) :: es), s) := by
  simp only [value, skip_cons (c := '\x7b') (by decide), hs]
  split
  · simp at hne
  · rfl

theorem found_of_succ {v : Value} (h : ∀ fuel rest, v.compact.length < fuel + 1 →
    value (fuel + 1) (v.compact ++ rest) = some (v, rest)) : Found v := by
  intro fuel rest hf
  obtain ⟨fuel, rfl⟩ := Nat.exists_eq_succ_of_ne_zero (Nat.ne_zero_of_lt hf)
  exact h fuel rest hf

theorem found_list {items : List Value} (ht : ∀ v ∈ items, Tidy v) (h : ∀ v ∈ items, Found v) :
    Found (list items) := by
  refine found_of_succ fun fuel rest hf ↦ ?_
  match items with
  | [] => rfl
  | v :: vs =>
    have hv := ht v (.head _)
    obtain ⟨c, t, hc, -, hne⟩ := hv.head_compact
    simp only [compact_list_cons, List.length_append, List.length_cons] at hf
    simp only [compact_list_cons, List.cons_append, List.append_assoc]
    rw [value_list (hv.skip_compact _) (by simpa [hc] using hne), h v (.head _) fuel _ (by omega)]
    simp only [Option.bind_eq_bind, Option.bind_some]
    rw [items_compactItems (fun v hv ↦ h v (.tail _ hv)) fuel _ (by omega)]
    rfl

theorem found_object {es : List (List Char × Value)} (hk : ∀ e ∈ es, ∃ k, e.1 = escape k)
    (h : ∀ e ∈ es, Found e.2) : Found (object es) := by
  refine found_of_succ fun fuel rest hf ↦ ?_
  match es with
  | [] => rfl
  | (w, v) :: es =>
    obtain ⟨k, rfl⟩ := hk _ (.head _)
    have hv : Found v := h _ (.head _)
    simp only [compact_object_cons, List.length_append, List.length_cons] at hf
    simp only [compact_object_cons, List.cons_append, List.append_assoc]
    have hskip (s : List Char) : skip (quoted (escape k) ++ s) = quoted (escape k) ++ s :=
      skip_cons (c := '"') (by decide) _
    rw [value_object (hskip _) (by simp [quoted]), name_quoted]
    simp only [Option.bind_eq_bind, Option.bind_some]
    rw [hv fuel _ (by omega)]
    simp only [Option.bind_some]
    rw [entries_compactEntries (fun e he ↦ hk e (.tail _ he)) (fun e he ↦ h e (.tail _ he)) fuel _
      (by omega)]
    rfl

theorem Tidy.found {v : Value} (h : Tidy v) : Found v := by
  induction h with
  | null => exact found_of_succ fun _ _ _ ↦ rfl
  | bool b => exact found_of_succ fun _ _ _ ↦ by cases b <;> rfl
  | text s =>
    refine found_of_succ fun fuel rest _ ↦ ?_
    rw [compact_text, quoted, List.cons_append, List.cons_append, value_quote, List.append_assoc,
      List.singleton_append, inside_escape]
    rfl
  | list h ih => exact found_list h ih
  | object hk _ ih => exact found_object hk ih

/-- A tidy value is read as it was written. -/
theorem ofText?_compact {v : Value} (h : Tidy v) : ofText? v.compact = some v := by
  have hv := h.found (v.compact.length + 1) [] (Nat.lt_succ_self _)
  rw [List.append_nil] at hv
  rw [ofText?, hv]
  rfl

section Printed

def isPrinted (c : Char) : Bool := ' ' ≤ c

theorem printed_hexOfWidth : ∀ n < 32, (Text.hexOfWidth 4 n).all isPrinted = true := by decide

theorem printed_of_escaped {c : Char} {w : List Char} (h : Escaped c w) :
    w.all isPrinted = true := by
  cases h with
  | short _ hd _ => simpa [isPrinted] using hd
  | hex hc =>
    rw [List.all_cons, List.all_cons, printed_hexOfWidth c.toNat hc]
    rfl
  | plain _ _ hc => simpa [isPrinted] using Char.not_lt.1 hc

theorem printed_quoted_escape (s : List Char) : (quoted (escape s)).all isPrinted = true := by
  have h : (escape s).all isPrinted = true := by
    rw [escape, List.all_flatMap, List.all_eq_true]
    exact fun c _ ↦ printed_of_escaped (escaped_escapeChar c)
  rw [quoted, List.all_append, List.all_cons, h]
  rfl

theorem printed_compactItems {vs : List Value} (h : ∀ v ∈ vs, v.compact.all isPrinted = true) :
    (compactItems vs).all isPrinted = true := by
  induction vs with
  | nil => rfl
  | cons v vs ih =>
    rw [List.forall_mem_cons] at h
    rw [compactItems, List.all_append, List.all_cons, h.1, ih h.2]
    rfl

theorem printed_compactEntries {es : List (List Char × Value)}
    (hk : ∀ e ∈ es, ∃ k, e.1 = escape k) (h : ∀ e ∈ es, e.2.compact.all isPrinted = true) :
    (compactEntries es).all isPrinted = true := by
  induction es with
  | nil => rfl
  | cons e es ih =>
    rw [List.forall_mem_cons] at hk h
    obtain ⟨⟨k, hk₁⟩, hk⟩ := hk
    obtain ⟨w, v⟩ := e
    obtain rfl : w = escape k := hk₁
    simp only [compactEntries, List.all_append, List.all_cons, printed_quoted_escape, h.1,
      ih hk h.2]
    rfl

theorem Tidy.printed {v : Value} (h : Tidy v) : v.compact.all isPrinted = true := by
  induction h with
  | null => rfl
  | bool b => cases b <;> rfl
  | text s => exact printed_quoted_escape s
  | @list items _ ih =>
    cases items with
    | nil => rfl
    | cons v vs =>
      rw [List.forall_mem_cons] at ih
      rw [compact_list_cons, List.all_append, List.all_cons, ih.1, printed_compactItems ih.2]
      rfl
  | @object entries hk _ ih =>
    match entries with
    | [] => rfl
    | (w, v) :: es =>
      rw [List.forall_mem_cons] at hk ih
      obtain ⟨⟨k, hk₁⟩, hk⟩ := hk
      obtain rfl : w = escape k := hk₁
      simp only [compact_object_cons, List.all_append, List.all_cons, printed_quoted_escape, ih.1,
        printed_compactEntries hk ih.2]
      rfl

end Printed

end Value

end Multicloud.Json
