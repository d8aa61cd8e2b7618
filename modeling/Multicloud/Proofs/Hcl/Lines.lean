import Mathlib.Algebra.GroupWithZero.Nat
import Multicloud.Hcl.Block
import Multicloud.Proofs.Text.Clean
import Multicloud.Proofs.Text.Separated

namespace Multicloud

namespace Text

def breaks (s : String) : Nat := s.toList.count '\n'

variable {s t : String}

theorem breaks_append (s t : String) : breaks (s ++ t) = breaks s + breaks t := by
  rw [breaks, String.toList_append, List.count_append, breaks, breaks]

theorem breaks_of_simple (h : Simple s.toList) : breaks s = 0 :=
  List.count_eq_zero.2 (h.not_mem rfl)

theorem breaks_join (parts : List String) :
    breaks (String.join parts) = (parts.map breaks).sum := by
  rw [breaks, String.toList_join, List.count_flatMap]
  rfl

theorem breaks_intercalate {sep : String} (hsep : breaks sep = 0) (parts : List String) :
    breaks (sep.intercalate parts) = (parts.map breaks).sum := by
  induction parts with
  | nil => simp [breaks]
  | cons part parts ih =>
    cases parts with
    | nil => simp
    | cons part' parts =>
      have hsum : ((part :: part' :: parts).map breaks).sum =
          breaks part + ((part' :: parts).map breaks).sum := by rw [List.map_cons, List.sum_cons]
      rw [String.intercalate_cons_cons, breaks_append, breaks_append, ih, hsep, hsum, Nat.add_zero]

theorem breaks_padEnd (width : Nat) (s : String) : breaks (padEnd width s) = breaks s := by
  have hblanks : breaks (String.ofList (List.replicate (width - s.length) ' ')) = 0 := by
    rw [breaks, String.toList_ofList, List.count_replicate]
    rfl
  rw [padEnd, breaks_append, hblanks, Nat.add_zero]

end Text

namespace Hcl

open Text (breaks breaks_append)

theorem count_escape (s : List Char) : (escape s).count '\n' = s.count '\n' := by
  fun_induction escape s <;> simp_all [List.count_cons]

theorem breaks_quote (s : String) : breaks (quote s) = breaks s := by
  rw [breaks, quote, String.toList_ofList, List.count_append, List.count_cons, count_escape]
  rfl

theorem Value.breaks_render_list (items : List String) :
    breaks (Value.list items).render = (items.map breaks).sum := by
  have hquotes : (items.map quote).map breaks = items.map breaks := by
    rw [List.map_map]
    refine List.map_congr_left fun item _ ↦ ?_
    rw [Function.comp_apply, breaks_quote]
  rw [Value.render, breaks_append, breaks_append, Text.breaks_intercalate (by decide), hquotes]
  simp [breaks]

theorem Value.breaks_ofProperty (p : Property) :
    breaks (Value.ofProperty p).render = breaks p.display := by
  cases p with
  | bool b => cases b <;> rfl
  | int n => rfl
  | text s => exact breaks_quote s
  | list items =>
    rw [ofProperty, breaks_render_list, Property.display, breaks_append, breaks_append,
      Text.breaks_intercalate (by decide)]
    simp [breaks]

/-- The ends of lines that attributes bring in. -/
def strayBreaks (attributes : List (String × Value)) : Nat :=
  (attributes.map fun a ↦ breaks a.1 + breaks a.2.render).sum

theorem sum_breaks_aligned (attributes : List (String × Value)) :
    ((aligned attributes).map breaks).sum = strayBreaks attributes := by
  rw [aligned, strayBreaks, List.map_map]
  refine congrArg List.sum (List.map_congr_left fun a _ ↦ ?_)
  rw [Function.comp, breaks_append, breaks_append, breaks_append, Text.breaks_padEnd]
  simp [breaks]

theorem length_aligned (attributes : List (String × Value)) :
    (aligned attributes).length = attributes.length := by
  rw [aligned, List.length_map]

namespace Block

variable (b : Block)

def lineCount (attributes dependencies : Nat) : Nat :=
  5 + (if attributes = 0 then 0 else 1 + attributes) +
    if dependencies = 0 then 0 else 3 + dependencies

theorem length_lines : b.lines.length = lineCount b.attributes.length b.dependsOn.length := by
  have hheader : b.header.length = 4 := by simp [header, length_aligned]
  have hattributes : b.attributeLines.length =
      if b.attributes.length = 0 then 0 else 1 + b.attributes.length := by
    rw [attributeLines]
    cases b.attributes <;> simp [length_aligned, Nat.add_comm]
  have hdependencies : b.dependencyLines.length =
      if b.dependsOn.length = 0 then 0 else 3 + b.dependsOn.length := by
    rw [dependencyLines]
    cases b.dependsOn with
    | nil => rfl
    | cons d rest => simp; omega
  simp only [lines, List.length_append, List.length_singleton, hheader, hattributes, hdependencies,
    lineCount]
  omega

theorem sum_breaks_header : (b.header.map breaks).sum =
    breaks b.comment + breaks b.name + breaks b.source + breaks b.version := by
  have hcomment : breaks ("# " ++ b.comment) = breaks b.comment := by
    rw [breaks_append]
    simp [breaks]
  have hname : breaks ("module \"" ++ b.name ++ "\" \x7b") = breaks b.name := by
    rw [breaks_append, breaks_append]
    simp [breaks]
  have hvalues : strayBreaks [("source", .str b.source), ("version", .str b.version)] =
      breaks b.source + breaks b.version := by
    simp [strayBreaks, Value.render, breaks_quote, show breaks "source" = 0 from rfl,
      show breaks "version" = 0 from rfl]
  rw [header, List.map_append, List.sum_append, sum_breaks_aligned, hvalues]
  simp only [List.map_cons, List.map_nil, List.sum_cons, List.sum_nil, hcomment, hname]
  omega

theorem sum_breaks_attributeLines :
    (b.attributeLines.map breaks).sum = strayBreaks b.attributes := by
  rw [attributeLines]
  split
  · next hnil =>
    rw [List.isEmpty_iff.1 hnil]
    rfl
  · rw [List.map_cons, List.sum_cons, sum_breaks_aligned]
    exact Nat.zero_add _

theorem sum_breaks_dependencyLines :
    (b.dependencyLines.map breaks).sum = (b.dependsOn.map breaks).sum := by
  have hline (d : String) : breaks ("    module." ++ d ++ ",") = breaks d := by
    rw [breaks_append, breaks_append]
    simp [breaks]
  have hfirst : (["", "  depends_on = ["].map breaks).sum = 0 := rfl
  have hlast : (["  ]"].map breaks).sum = 0 := rfl
  rw [dependencyLines]
  split
  · next hnil => rw [List.isEmpty_iff.1 hnil]
  · rw [List.map_append, List.map_append, List.sum_append, List.sum_append, List.map_map, hfirst,
      hlast, Nat.zero_add, Nat.add_zero]
    simp only [Function.comp_def, hline]

theorem sum_breaks_lines : (b.lines.map breaks).sum =
    breaks b.comment + breaks b.name + breaks b.source + breaks b.version +
      strayBreaks b.attributes + (b.dependsOn.map breaks).sum := by
  simp only [lines, List.map_append, List.sum_append, sum_breaks_header,
    sum_breaks_attributeLines, sum_breaks_dependencyLines]
  rfl

/-- A block has the lines of its layout, and one more for each end of a line in one of them. -/
theorem breaks_render : breaks b.render =
    lineCount b.attributes.length b.dependsOn.length + (b.lines.map breaks).sum := by
  have hline (s : String) : breaks (s ++ "\n") = breaks s + 1 := breaks_append s "\n"
  have hsum (lines : List String) :
      (lines.map fun s ↦ breaks s + 1).sum = lines.length + (lines.map breaks).sum := by
    induction lines with
    | nil => rfl
    | cons s lines ih =>
      simp only [List.map_cons, List.sum_cons, List.length_cons, ih]
      omega
  rw [render, Text.breaks_join, List.map_map]
  simp only [Function.comp_def, hline]
  rw [hsum, length_lines]

/-- If no text has an end of a line, the lines of a block are those of its layout. -/
theorem splitAt_render (h : (b.lines.map breaks).sum = 0) :
    Name.splitAt '\n' b.render.toList = b.lines.map String.toList ++ [[]] := by
  have hflat : ∀ line ∈ b.lines.map String.toList, '\n' ∉ line := by
    intro line hline
    obtain ⟨s, hs, rfl⟩ := List.mem_map.1 hline
    exact List.count_eq_zero.1 (List.sum_eq_zero_iff_forall_eq_nat.1 h _ (List.mem_map_of_mem hs))
  refine Text.flatMap_terminated_inj (Text.not_mem_splitAt '\n' _) (c := '\n') ?_ ?_
  · intro line hline
    rcases List.mem_append.1 hline with hline | hline
    · exact hflat line hline
    · rw [List.mem_singleton.1 hline]
      exact List.not_mem_nil
  · rw [Text.flatMap_splitAt, List.flatMap_append, render, String.toList_join, List.flatMap_map,
      List.flatMap_map]
    simp

theorem exists_render_eq : ∃ s, b.render = s ++ "\n" := by
  refine ⟨String.join ((b.header ++ b.attributeLines ++ b.dependencyLines).map (· ++ "\n")) ++
    "\x7d", ?_⟩
  rw [render, lines, ← String.toList_inj]
  simp

end Block

end Hcl

end Multicloud
