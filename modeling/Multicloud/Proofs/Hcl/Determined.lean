import Multicloud.Proofs.Hcl.Quoted

namespace Multicloud.Hcl

open Text (breaks padEnd)

def Over (letter : Char → Bool) (s : String) : Prop := ∀ c ∈ s.toList, letter c = true

instance (letter : Char → Bool) (s : String) : Decidable (Over letter s) :=
  List.decidableBAll (p := (letter · = true)) s.toList

variable {letter : Char → Bool}

theorem Over.not_mem {s : String} (h : Over letter s) {c : Char} (hc : letter c = false) :
    c ∉ s.toList := by
  intro hmem
  rw [h c hmem] at hc
  cases hc

theorem Over.breaks_eq_zero {s : String} (h : Over letter s) (hline : letter '\n' = false) :
    breaks s = 0 := List.count_eq_zero.2 (h.not_mem hline)

section Value

theorem quote_inj {s t : String} (h : quote s = quote t) : s = t :=
  (@quote_append_inj [] [] s t (by rw [h])).1

/-- Texts are single lines, and an expression is an output of a module. -/
inductive Value.Plain (letter : Char → Bool) : Value → Prop
  | str {s : String} : breaks s = 0 → Plain letter (.str s)
  | int (n : UInt64) : Plain letter (.int n)
  | bool (b : Bool) : Plain letter (.bool b)
  | list {items : List String} : (∀ item ∈ items, breaks item = 0) → Plain letter (.list items)
  | output {target output : String} : Over letter target → Over letter output →
    Plain letter (.expr (moduleOutput target output))

variable {v v' : Value}

theorem Value.Plain.breaks_render (h : v.Plain letter) (hline : letter '\n' = false) :
    breaks v.render = 0 := by
  cases h with
  | str hs => rw [render, breaks_quote, hs]
  | int n => exact Text.breaks_of_simple (Text.simple_repr _)
  | bool b => cases b <;> rfl
  | list hitems =>
    rw [breaks_render_list, List.sum_eq_zero_iff_forall_eq_nat]
    intro n hn
    obtain ⟨item, hitem, rfl⟩ := List.mem_map.1 hn
    exact hitems item hitem
  | output htarget houtput =>
    rw [render, moduleOutput, Text.breaks_append, Text.breaks_append, Text.breaks_append,
      htarget.breaks_eq_zero hline, houtput.breaks_eq_zero hline]
    rfl

/-- What a value is begins to show in its first character. -/
def sign (c : Char) : Nat :=
  if c = '"' then 0 else if c = '[' then 1 else if c = 't' ∨ c = 'f' then 2
  else if c = 'm' then 3 else 4

def Value.sign : Value → Nat
  | .str _ => 0
  | .list _ => 1
  | .bool _ => 2
  | .expr _ => 3
  | .int _ => 4

theorem sign_of_isDigit {c : Char} (h : c.isDigit = true) : sign c = 4 := by
  have hne {d : Char} (hd : d.isDigit = false) : c ≠ d := by
    rintro rfl
    rw [h] at hd
    cases hd
  rw [sign, if_neg (hne rfl), if_neg (hne rfl), if_neg (not_or.2 ⟨hne rfl, hne rfl⟩),
    if_neg (hne rfl)]

theorem Value.Plain.head_render (h : v.Plain letter) :
    ∃ c rest, v.render.toList = c :: rest ∧ Hcl.sign c = v.sign := by
  cases h with
  | @str s _ => exact ⟨'"', _, toList_quote s, rfl⟩
  | int n =>
    cases hd : (Nat.repr n.toNat).toList with
    | nil => exact absurd (String.toList_eq_nil_iff.1 hd) Nat.repr_ne_empty
    | cons c rest =>
      have hdigit : c.isDigit = true := Text.isDigit_of_mem_repr (hd ▸ List.mem_cons_self)
      exact ⟨c, rest, hd, sign_of_isDigit hdigit⟩
  | bool b =>
    cases b with
    | false => exact ⟨'f', _, rfl, rfl⟩
    | true => exact ⟨'t', _, rfl, rfl⟩
  | @list items _ =>
    refine ⟨'[', (", ".intercalate (items.map quote) ++ "]").toList, ?_, rfl⟩
    simp [render]
  | @output target output _ _ =>
    refine ⟨'m', ("odule." ++ target ++ "." ++ output).toList, ?_, rfl⟩
    simp [render, moduleOutput]

theorem Value.Plain.render_inj (h : v.Plain letter) (h' : v'.Plain letter)
    (he : v.render = v'.render) : v = v' := by
  have hsign : v.sign = v'.sign := by
    obtain ⟨c, rest, hc, hs⟩ := h.head_render
    obtain ⟨c', rest', hc', hs'⟩ := h'.head_render
    rw [he, hc'] at hc
    rw [← hs, ← hs', (List.cons.inj hc).1]
  cases v with
  | str s =>
    cases v' with
    | str s' => exact congrArg Value.str (quote_inj he)
    | _ => cases hsign
  | int n =>
    cases v' with
    | int n' => exact congrArg Value.int (UInt64.toNat_inj.1 (Nat.repr_injective he))
    | _ => cases hsign
  | bool b =>
    cases v' with
    | bool b' =>
      revert he
      cases b <;> cases b' <;> decide
    | _ => cases hsign
  | list items =>
    cases v' with
    | list items' => exact congrArg Value.list (render_list_injective he)
    | _ => cases hsign
  | expr x =>
    cases v' with
    | expr x' => exact congrArg Value.expr he
    | _ => cases hsign

end Value

section Aligned

def assignment (width : Nat) (k value : String) : String := "  " ++ padEnd width k ++ " = " ++ value

theorem exists_aligned_eq (attributes : List (String × Value)) : ∃ width,
    aligned attributes = attributes.map fun a ↦ assignment width a.1 a.2.render := by
  simp only [aligned, assignment]
  exact ⟨_, rfl⟩

/-- The name ends at the first blank and the value begins after the first sign, whatever the
columns are. -/
theorem assignment_inj {width width' : Nat} {k k' x x' : String} (hk : ' ' ∉ k.toList)
    (hk' : ' ' ∉ k'.toList) (h : assignment width k x = assignment width' k' x') :
    k = k' ∧ x = x' := by
  have hlist (width : Nat) (k x : String) : (assignment width k x).toList =
      ' ' :: ' ' :: (k.toList ++ ' ' ::
        (List.replicate (width - k.length) ' ' ++ '=' :: ' ' :: x.toList)) := by
    have hblank (n : Nat) (rest : List Char) :
        List.replicate n ' ' ++ ' ' :: rest = ' ' :: (List.replicate n ' ' ++ rest) := by
      rw [List.append_cons, ← List.replicate_succ', List.replicate_succ, List.cons_append]
    simp [assignment, padEnd, hblank]
  have h := congrArg String.toList h
  rw [hlist, hlist, List.cons.injEq, List.cons.injEq] at h
  obtain ⟨hname, hrest⟩ := Text.append_cons_inj hk hk' h.2.2
  have hsign (n : Nat) : '=' ∉ List.replicate n ' ' := by simp
  obtain ⟨-, hvalue⟩ := Text.append_cons_inj (hsign _) (hsign _) hrest
  exact ⟨String.toList_inj.1 hname, String.toList_inj.1 (List.cons.inj hvalue).2⟩

def isIndented (line : String) : Bool := [' ', ' '].isPrefixOf line.toList

theorem isIndented_assignment (width : Nat) (k x : String) :
    isIndented (assignment width k x) = true := by
  simp [isIndented, assignment]

theorem aligned_inj {attributes attributes' : List (String × Value)}
    (hplain : ∀ a ∈ attributes, ' ' ∉ a.1.toList ∧ a.2.Plain letter)
    (hplain' : ∀ a ∈ attributes', ' ' ∉ a.1.toList ∧ a.2.Plain letter)
    (h : aligned attributes = aligned attributes') : attributes = attributes' := by
  obtain ⟨width, hwidth⟩ := exists_aligned_eq attributes
  obtain ⟨width', hwidth'⟩ := exists_aligned_eq attributes'
  rw [hwidth, hwidth'] at h
  -- the widths are kept, although they are no longer those of the attributes that are left
  clear hwidth hwidth'
  induction attributes generalizing attributes' with
  | nil => exact (List.map_eq_nil_iff.1 h.symm).symm
  | cons a attributes ih =>
    cases attributes' with
    | nil => exact absurd h (List.cons_ne_nil _ _)
    | cons a' attributes' =>
      obtain ⟨hkey, hvalue⟩ := hplain a (.head _)
      obtain ⟨hkey', hvalue'⟩ := hplain' a' (.head _)
      obtain ⟨hline, hlines⟩ := List.cons.inj h
      obtain ⟨hname, htext⟩ := assignment_inj hkey hkey' hline
      have hrest := ih (fun a ha ↦ hplain a (.tail _ ha)) (fun a ha ↦ hplain' a (.tail _ ha)) hlines
      rw [Prod.ext hname (hvalue.render_inj hvalue' htext), hrest]

theorem Value.Plain.render_ne_bracket {v : Value} (h : v.Plain letter) : v.render ≠ "[" := by
  intro he
  have hsign : v.sign = 1 := by
    obtain ⟨c, rest, hc, hs⟩ := h.head_render
    rw [he] at hc
    rw [← hs, ← (List.cons.inj hc).1]
    rfl
  cases v with
  | list items =>
    have hlength := congrArg String.length he
    simp only [render, String.length_append] at hlength
    have hbrackets : "[".length = 1 ∧ "]".length = 1 := ⟨rfl, rfl⟩
    omega
  | _ => cases hsign

theorem assignment_ne_dependencies {width : Nat} {k : String} {v : Value} (hk : ' ' ∉ k.toList)
    (hv : v.Plain letter) : assignment width k v.render ≠ "  depends_on = [" := by
  intro h
  have hopening : assignment 0 "depends_on" "[" = "  depends_on = [" := rfl
  exact hv.render_ne_bracket (assignment_inj hk (by decide) (h.trans hopening.symm)).2

theorem append_inj_of_all {α : Type} {p : α → Bool} {l l' r r' : List α} (hl : l.all p = true)
    (hl' : l'.all p = true) (hr : r.head?.any p = false) (hr' : r'.head?.any p = false)
    (h : l ++ r = l' ++ r') : l = l' ∧ r = r' := by
  have hall {l r : List α} (hl : l.all p = true) (hr : r.head?.any p = false) :
      (l ++ r).takeWhile p = l := by
    rw [List.takeWhile_append_of_pos (List.all_eq_true.1 hl)]
    cases r with
    | nil => simp
    | cons x r => simp_all
  have heq : l = l' := by rw [← hall hl hr, h, hall hl' hr']
  exact ⟨heq, List.append_cancel_left (heq ▸ h)⟩

end Aligned

namespace Block

variable {b b' : Block}

/-- Names are words of an alphabet, texts are single lines. -/
structure Plain (letter : Char → Bool) (b : Block) : Prop where
  comment : breaks b.comment = 0
  name : Over letter b.name
  source : breaks b.source = 0
  version : breaks b.version = 0
  key : ∀ a ∈ b.attributes, Over letter a.1
  value : ∀ a ∈ b.attributes, a.2.Plain letter
  dependsOn : ∀ d ∈ b.dependsOn, Over letter d

theorem Plain.sum_breaks_lines (h : b.Plain letter) (hline : letter '\n' = false) :
    (b.lines.map breaks).sum = 0 := by
  have hattributes : strayBreaks b.attributes = 0 := by
    rw [strayBreaks, List.sum_eq_zero_iff_forall_eq_nat]
    intro n hn
    obtain ⟨a, ha, rfl⟩ := List.mem_map.1 hn
    rw [(h.key a ha).breaks_eq_zero hline, (h.value a ha).breaks_render hline]
  have hdependencies : (b.dependsOn.map breaks).sum = 0 := by
    rw [List.sum_eq_zero_iff_forall_eq_nat]
    intro n hn
    obtain ⟨d, hd, rfl⟩ := List.mem_map.1 hn
    exact (h.dependsOn d hd).breaks_eq_zero hline
  rw [Block.sum_breaks_lines, h.comment, h.name.breaks_eq_zero hline, h.source, h.version,
    hattributes, hdependencies]

theorem Plain.lines_inj (h : b.Plain letter) (h' : b'.Plain letter) (hline : letter '\n' = false)
    (he : b.render = b'.render) : b.lines = b'.lines := by
  have hsplit := b.splitAt_render (h.sum_breaks_lines hline)
  rw [he, b'.splitAt_render (h'.sum_breaks_lines hline)] at hsplit
  have hmap := List.append_cancel_right hsplit
  exact ((List.map_injective_iff.2 fun s t ↦ String.toList_inj.1) hmap).symm

theorem Plain.attribute (h : b.Plain letter) (hblank : letter ' ' = false) :
    ∀ a ∈ b.attributes, ' ' ∉ a.1.toList ∧ a.2.Plain letter := fun a ha ↦
  ⟨(h.key a ha).not_mem hblank, h.value a ha⟩

theorem header_eq (b : Block) : b.header = ["# " ++ b.comment,
    "module \"" ++ b.name ++ "\" \x7b", "  source  = " ++ quote b.source,
    "  version = " ++ quote b.version] := by
  simp only [header, aligned, padEnd, Value.render, List.map_cons, List.map_nil, List.foldl_cons,
    List.foldl_nil, List.cons_append, List.nil_append]
  rfl

theorem header_inj (h : b.header = b'.header) : b.comment = b'.comment ∧ b.name = b'.name ∧
    b.source = b'.source ∧ b.version = b'.version := by
  rw [header_eq, header_eq] at h
  simp only [List.cons.injEq, String.append_right_inj, String.append_left_inj, and_true] at h
  obtain ⟨hcomment, hname, hsource, hversion⟩ := h
  exact ⟨hcomment, hname, quote_inj hsource, quote_inj hversion⟩

theorem dependencyLines_inj (h : b.dependencyLines = b'.dependencyLines) :
    b.dependsOn = b'.dependsOn := by
  rw [dependencyLines, dependencyLines] at h
  cases hd : b.dependsOn with
  | nil =>
    cases hd' : b'.dependsOn with
    | nil => rfl
    | cons d' rest' => simp [hd, hd'] at h
  | cons d rest =>
    cases hd' : b'.dependsOn with
    | nil => simp [hd, hd'] at h
    | cons d' rest' =>
      rw [hd, hd'] at h
      have hmap := List.append_cancel_left (List.append_cancel_right h)
      refine (List.map_injective_iff.2 fun s t hst ↦ ?_) hmap
      rwa [String.append_left_inj, String.append_right_inj] at hst

theorem any_isIndented_dependencyLines (b : Block) :
    (b.dependencyLines ++ ["\x7d"]).head?.any isIndented = false := by
  rw [dependencyLines]
  split <;> rfl

theorem all_isIndented_aligned (attributes : List (String × Value)) :
    (aligned attributes).all isIndented = true := by
  obtain ⟨width, hwidth⟩ := exists_aligned_eq attributes
  rw [hwidth, List.all_map]
  exact List.all_eq_true.2 fun a _ ↦ isIndented_assignment width a.1 a.2.render

def body (b : Block) : List String := b.attributeLines ++ (b.dependencyLines ++ ["\x7d"])

theorem body_of_nil (h : b.attributes = []) : b.body = b.dependencyLines ++ ["\x7d"] := by
  rw [body, attributeLines, h]
  rfl

theorem body_of_cons {a : String × Value} {rest : List (String × Value)}
    (h : b.attributes = a :: rest) :
    b.body = "" :: (aligned b.attributes ++ (b.dependencyLines ++ ["\x7d"])) := by
  rw [body, attributeLines, h]
  rfl

/-- A block without attributes is not written as one with some. -/
theorem Plain.attributes_eq_nil (h' : b'.Plain letter) (hblank : letter ' ' = false)
    (hnil : b.attributes = []) (he : b.body = b'.body) : b'.attributes = [] := by
  cases hcons : b'.attributes with
  | nil => rfl
  | cons a rest =>
    obtain ⟨hkey, hvalue⟩ := h'.attribute hblank a (hcons ▸ .head _)
    obtain ⟨width, hwidth⟩ := exists_aligned_eq b'.attributes
    rw [body_of_nil hnil, body_of_cons hcons, hwidth, hcons, dependencyLines] at he
    split at he
    · exact absurd (List.cons.inj he).1 (by decide)
    · have hline := (List.cons.inj (List.cons.inj he).2).1
      exact absurd hline.symm (assignment_ne_dependencies hkey hvalue)

theorem Plain.body_inj (h : b.Plain letter) (h' : b'.Plain letter) (hblank : letter ' ' = false)
    (he : b.body = b'.body) : b.attributes = b'.attributes ∧ b.dependsOn = b'.dependsOn := by
  have hparts : b.attributes = b'.attributes ∧
      b.dependencyLines ++ ["\x7d"] = b'.dependencyLines ++ ["\x7d"] := by
    cases ha : b.attributes with
    | nil =>
      have ha' := h'.attributes_eq_nil hblank ha he
      rw [body_of_nil ha, body_of_nil ha'] at he
      exact ⟨ha'.symm, he⟩
    | cons a rest =>
      cases ha' : b'.attributes with
      | nil => rw [h.attributes_eq_nil hblank ha' he.symm] at ha; cases ha
      | cons a' rest' =>
        rw [body_of_cons ha, body_of_cons ha'] at he
        obtain ⟨haligned, hrest⟩ := append_inj_of_all (all_isIndented_aligned _)
          (all_isIndented_aligned _) b.any_isIndented_dependencyLines
          b'.any_isIndented_dependencyLines (List.cons.inj he).2
        rw [← ha, ← ha']
        exact ⟨aligned_inj (h.attribute hblank) (h'.attribute hblank) haligned, hrest⟩
  exact ⟨hparts.1, dependencyLines_inj (List.append_cancel_right hparts.2)⟩

/-- A block can be read off its text, over any alphabet without blanks and ends of lines. -/
theorem Plain.render_inj (h : b.Plain letter) (h' : b'.Plain letter) (hblank : letter ' ' = false)
    (hline : letter '\n' = false) (he : b.render = b'.render) : b = b' := by
  have hlines (b : Block) : b.lines = b.header ++ b.body := by
    simp [lines, body]
  have hlength (b : Block) : b.header.length = 4 := by
    rw [header_eq]
    rfl
  have he := h.lines_inj h' hline he
  rw [hlines, hlines] at he
  obtain ⟨hheader, hbody⟩ := List.append_inj he ((hlength b).trans (hlength b').symm)
  obtain ⟨hcomment, hname, hsource, hversion⟩ := header_inj hheader
  obtain ⟨hattributes, hdepends⟩ := h.body_inj h' hblank hbody
  cases b
  cases b'
  simp_all

end Block

end Multicloud.Hcl
