import Mathlib.Data.List.Basic
import Multicloud.Proofs.Hcl.Lines

namespace Multicloud.Hcl

variable {s t rest rest' more : List Char} {c : Char}

section Replace

/-- Every occurrence of a pattern, one after the other from the left, gives way to something new. -/
def replaceAll (pattern new : List Char) : List Char → List Char
  | [] => []
  | c :: rest =>
    if pattern <+: c :: rest then new ++ replaceAll pattern new (rest.drop (pattern.length - 1))
    else c :: replaceAll pattern new rest
termination_by s => s.length
decreasing_by
  · simp only [List.length_drop, List.length_cons]
    omega
  · simp

variable {x y : Char} {pattern new : List Char}

theorem replaceAll_nil : replaceAll pattern new [] = [] := by rw [replaceAll]

theorem replaceAll_single : replaceAll [x] new (c :: rest) =
    if c = x then new ++ replaceAll [x] new rest else c :: replaceAll [x] new rest := by
  rw [replaceAll]
  simp [List.cons_prefix_cons, eq_comm]

theorem replaceAll_pair : replaceAll [x, y] new (x :: y :: rest) =
    new ++ replaceAll [x, y] new rest := by
  rw [replaceAll]
  simp

theorem replaceAll_skip (h : ¬ pattern <+: c :: rest) :
    replaceAll pattern new (c :: rest) = c :: replaceAll pattern new rest := by
  rw [replaceAll, if_neg h]

theorem head?_replaceAll (hx : x ≠ c) (hy : y ≠ c) :
    (replaceAll (x :: pattern) (y :: new) s).head? = some c ↔ s.head? = some c := by
  cases s with
  | nil => rw [replaceAll_nil]
  | cons first rest =>
    by_cases hprefix : x :: pattern <+: first :: rest
    · rw [replaceAll, if_pos hprefix]
      obtain rfl := (List.cons_prefix_cons.1 hprefix).1
      simp [hx, hy]
    · rw [replaceAll_skip hprefix]
      rfl

/-- Escaping comes to four replacements, one after the other, none of which meets what one before it
brought in. -/
theorem escape_eq_replaceAll (s : List Char) :
    escape s = replaceAll ['%', '\x7b'] ['%', '%', '\x7b']
      (replaceAll ['$', '\x7b'] ['$', '$', '\x7b']
        (replaceAll ['"'] ['\\', '"'] (replaceAll ['\\'] ['\\', '\\'] s))) := by
  fun_induction escape s with
  | case1 => simp only [replaceAll_nil]
  | case2 s ih => simp [replaceAll_single, replaceAll_skip, ih]
  | case3 s ih => simp [replaceAll_single, replaceAll_skip, ih]
  | case4 s ih => simp [replaceAll_skip, replaceAll_pair, ih]
  | case5 s ih => simp [replaceAll_skip, replaceAll_pair, ih]
  | case6 c s h₁ h₂ h₃ h₄ ih =>
    -- whether a brace comes next is the same before and after the replacements already made
    have hbrace (x : Char) (t : List Char) (ht : t.head? = some '\x7b' ↔ s.head? = some '\x7b')
        (hx : ∀ s', c = x → s ≠ '\x7b' :: s') : ¬ [x, '\x7b'] <+: c :: t := by
      rw [List.cons_prefix_cons]
      rintro ⟨rfl, more, rfl⟩
      obtain ⟨s', rfl⟩ := List.head?_eq_some_iff.1 (ht.1 rfl)
      exact hx s' rfl rfl
    rw [replaceAll_single, if_neg h₁, replaceAll_single, if_neg h₂,
      replaceAll_skip (hbrace '$' _ ?_ h₃), replaceAll_skip (hbrace '%' _ ?_ h₄),
      ← ih]
    · rw [head?_replaceAll (by decide) (by decide), head?_replaceAll (by decide) (by decide),
        head?_replaceAll (by decide) (by decide)]
    · rw [head?_replaceAll (by decide) (by decide), head?_replaceAll (by decide) (by decide)]

end Replace

section Scan

/-- What a literal stands for, read from left to right up to a bare quote or a bare opening of a
template, and what is left from there. -/
def scan : List Char → List Char × List Char
  | [] => ([], [])
  | '\\' :: '\\' :: rest => (scan rest).map ('\\' :: ·) id
  | '\\' :: '"' :: rest => (scan rest).map ('"' :: ·) id
  | '$' :: '$' :: '\x7b' :: rest => (scan rest).map ('$' :: '\x7b' :: ·) id
  | '%' :: '%' :: '\x7b' :: rest => (scan rest).map ('%' :: '\x7b' :: ·) id
  | '"' :: rest => ([], '"' :: rest)
  | '$' :: '\x7b' :: rest => ([], '$' :: '\x7b' :: rest)
  | '%' :: '\x7b' :: rest => ([], '%' :: '\x7b' :: rest)
  | c :: rest => (scan rest).map (c :: ·) id

theorem scan_cons (hback : c ≠ '\\') (hquote : c ≠ '"')
    (hopen : c = '$' ∨ c = '%' → ∀ more, rest ≠ '\x7b' :: more ∧ rest ≠ c :: '\x7b' :: more) :
    scan (c :: rest) = (scan rest).map (c :: ·) id := by
  rw [scan]
  · exact fun _ h _ ↦ hback h
  · exact fun _ h _ ↦ hback h
  · rintro more rfl h
    exact (hopen (.inl rfl) more).2 h
  · rintro more rfl h
    exact (hopen (.inr rfl) more).2 h
  · exact hquote
  · exact fun more h hmore ↦ (hopen (.inl h) more).1 hmore
  · exact fun more h hmore ↦ (hopen (.inr h) more).1 hmore

/-- The end of a literal, or the quote behind it. -/
def Closes (rest : List Char) : Prop := rest = [] ∨ ∃ more, rest = '"' :: more

theorem Closes.ne_cons (h : Closes rest) (hc : c ≠ '"') : rest ≠ c :: more := by
  rintro rfl
  obtain h | ⟨more', h⟩ := h
  · cases h
  · exact hc (List.cons.inj h).1

theorem Closes.scan_eq (h : Closes rest) : scan rest = ([], rest) := by
  obtain rfl | ⟨more, rfl⟩ := h
  · rfl
  · rfl

theorem of_escape_append_eq_brace (hrest : Closes rest) :
    escape s ++ rest = '\x7b' :: more → ∃ s', s = '\x7b' :: s' := by
  fun_cases escape s with
  | case1 => exact fun h ↦ absurd h (hrest.ne_cons (by decide))
  | case6 c s =>
    intro h
    obtain ⟨rfl, -⟩ := List.cons.inj h
    exact ⟨s, rfl⟩
  | _ => exact nofun

theorem escape_append_ne_opening (hrest : Closes rest) (hc : c = '$' ∨ c = '%') :
    escape s ++ rest ≠ c :: '\x7b' :: more := by
  have hback : c ≠ '\\' := by rintro rfl; simp at hc
  have hquote : c ≠ '"' := by rintro rfl; simp at hc
  fun_cases escape s with
  | case1 => exact hrest.ne_cons hquote
  | case2 => exact fun h ↦ hback (List.cons.inj h).1.symm
  | case3 => exact fun h ↦ hback (List.cons.inj h).1.symm
  | case4 => simp
  | case5 => simp
  | case6 c' s h₁ h₂ h₃ h₄ =>
    intro h
    obtain ⟨rfl, hbrace⟩ := List.cons.inj h
    obtain ⟨s', rfl⟩ := of_escape_append_eq_brace hrest hbrace
    rcases hc with rfl | rfl
    · exact h₃ s' rfl rfl
    · exact h₄ s' rfl rfl

/-- What was escaped is read back, up to the quote behind it or the end. -/
theorem scan_escape_append (s : List Char) (hrest : Closes rest) :
    scan (escape s ++ rest) = (s, rest) := by
  fun_induction escape s with
  | case1 => exact hrest.scan_eq
  | case6 c s h₁ h₂ h₃ h₄ ih =>
    have hopen : c = '$' ∨ c = '%' → ∀ more, escape s ++ rest ≠ '\x7b' :: more ∧
        escape s ++ rest ≠ c :: '\x7b' :: more := by
      refine fun hc more ↦ ⟨fun h ↦ ?_, escape_append_ne_opening hrest hc⟩
      obtain ⟨s', rfl⟩ := of_escape_append_eq_brace hrest h
      exact hc.elim (h₃ s' · rfl) (h₄ s' · rfl)
    rw [List.cons_append, scan_cons h₁ h₂ hopen, ih]
    rfl
  | _ => simp_all [scan]

end Scan

section Quote

theorem toList_quote (s : String) : (quote s).toList = '"' :: (escape s.toList ++ ['"']) := by
  rw [quote, String.toList_ofList, List.cons_append]

theorem quote_append_inj {s t : String} (h : (quote s).toList ++ rest = (quote t).toList ++ rest') :
    s = t ∧ rest = rest' := by
  have hscan (s : String) (rest : List Char) :
      scan ((quote s).toList ++ rest).tail = (s.toList, '"' :: rest) := by
    rw [toList_quote, List.cons_append, List.tail_cons, List.append_assoc, List.singleton_append]
    exact scan_escape_append s.toList (.inr ⟨rest, rfl⟩)
  have hboth := hscan s rest
  rw [h, hscan t rest'] at hboth
  obtain ⟨htext, hrest⟩ := Prod.mk.inj hboth
  exact ⟨(String.toList_inj.1 htext).symm, (List.cons.inj hrest).2.symm⟩

def further (items : List String) : List Char :=
  items.flatMap (fun item ↦ ',' :: ' ' :: (quote item).toList) ++ [']']

theorem further_injective : Function.Injective further := by
  intro items items' h
  induction items generalizing items' with
  | nil =>
    cases items' with
    | nil => rfl
    | cons item' items' => cases h
  | cons item items ih =>
    cases items' with
    | nil => cases h
    | cons item' items' =>
      simp only [further, List.flatMap_cons, List.append_assoc, List.cons_append, List.cons.injEq,
        true_and] at h
      obtain ⟨rfl, hrest⟩ := quote_append_inj h
      rw [ih hrest]

theorem toList_render_cons (item : String) (items : List String) :
    (Value.list (item :: items)).render.toList = '[' :: ((quote item).toList ++ further items) := by
  have hitems : (", ".intercalate ((item :: items).map quote)).toList ++ [']'] =
      (quote item).toList ++ further items := by
    induction items generalizing item with
    | nil => simp [further]
    | cons item' items ih =>
      rw [List.map_cons, List.map_cons, String.intercalate_cons_cons, ← List.map_cons,
        String.toList_append, String.toList_append, List.append_assoc, ih, further, further]
      simp
  rw [← hitems]
  simp [Value.render]

theorem render_list_injective : Function.Injective fun items ↦ (Value.list items).render := by
  intro items items' h
  have h : (Value.list items).render.toList = (Value.list items').render.toList :=
    congrArg String.toList h
  cases items with
  | nil =>
    cases items' with
    | nil => rfl
    | cons item' items' =>
      rw [toList_render_cons, toList_quote] at h
      cases h
  | cons item items =>
    cases items' with
    | nil =>
      rw [toList_render_cons, toList_quote] at h
      cases h
    | cons item' items' =>
      rw [toList_render_cons, toList_render_cons] at h
      obtain ⟨rfl, hrest⟩ := quote_append_inj (List.cons.inj h).2
      rw [further_injective hrest]

end Quote

/-- A quoted text stands between quotes, and what is between them is read back as the text, without
a bare quote or a bare opening of a template on the way. So neither two texts nor two lists of texts
are written alike. -/
theorem render_lossless :
    (∀ s : String, ∃ inside, (Value.str s).render.toList = '"' :: (inside ++ ['"']) ∧
      scan inside = (s.toList, [])) ∧
    Function.Injective (fun s ↦ (Value.str s).render) ∧
    Function.Injective fun items ↦ (Value.list items).render := by
  refine ⟨fun s ↦ ⟨escape s.toList, toList_quote s, ?_⟩, fun s t h ↦ ?_, render_list_injective⟩
  · have hscan := scan_escape_append s.toList (.inl rfl)
    rwa [List.append_nil] at hscan
  · have hquote : quote s = quote t := h
    exact (@quote_append_inj [] [] s t (by rw [hquote])).1

end Multicloud.Hcl
