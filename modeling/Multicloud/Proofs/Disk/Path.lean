import Multicloud.Proofs.Disk.Tree
import Multicloud.Proofs.Text.Separated

namespace Multicloud

namespace Path

variable {p : Path} {s : String} {init : List (List Char)} {name : List Char}

/-- What a name has to be to lead one step further. -/
structure IsName (name : List Char) : Prop where
  slash : '/' ∉ name
  idle : isIdle name = false
  back : name ≠ ['.', '.']

theorem isName_of_getLast? (hslash : '/' ∉ name) {c : Char} (h : name.getLast? = some c)
    (hc : c ≠ '.') : IsName name := by
  refine ⟨hslash, ?_, ?_⟩
  · rw [isIdle, Bool.or_eq_false_iff]
    refine ⟨?_, decide_eq_false ?_⟩
    · cases name with
      | nil => cases h
      | cons d name => rfl
    · rintro rfl
      exact hc (Option.some.inj h).symm
  · rintro rfl
    exact hc (Option.some.inj h).symm

theorem isName_of_mem (hslash : '/' ∉ name) {c : Char} (h : c ∈ name) (hc : c ≠ '.') :
    IsName name := by
  refine ⟨hslash, ?_, ?_⟩
  · rw [isIdle, Bool.or_eq_false_iff]
    refine ⟨by cases name <;> simp_all, decide_eq_false ?_⟩
    rintro rfl
    exact hc (List.mem_singleton.1 h)
  · rintro rfl
    simp [hc] at h

theorem IsName.ne_back (hs : IsName s.toList) : s ≠ ".." :=
  fun he ↦ hs.back (congrArg String.toList he)

theorem pieces_join (d : Path) (hs : '/' ∉ s.toList) :
    ∃ init, (d.join s).pieces = init ++ [s.toList] ∧
      (init.filter fun piece ↦ !isIdle piece).map String.ofList = d.steps := by
  have habsolute : isAbsolute ⟨s⟩ = false := by
    rw [isAbsolute, beq_eq_false_iff_ne]
    intro h
    exact hs (List.mem_of_mem_head? h)
  rw [join, habsolute, Bool.false_or]
  split
  · next hempty =>
    refine ⟨[], by rw [pieces, Text.splitAt_of_not_mem hs]; rfl, ?_⟩
    have hd : d.text = "" := by simpa using hempty
    rw [steps, pieces, hd]
    rfl
  split
  · next hlast =>
    obtain ⟨a, ha⟩ := List.getLast?_eq_some_iff.1 hlast
    refine ⟨Name.splitAt '/' a, ?_, ?_⟩
    · rw [pieces, String.toList_append, ha, List.append_assoc, List.singleton_append,
        Text.splitAt_append, Text.splitAt_of_not_mem hs]
    · rw [steps, pieces, ha, Text.splitAt_append]
      simp [Name.splitAt, isIdle]
  · refine ⟨d.pieces, ?_, rfl⟩
    rw [pieces, pieces, String.toList_append, String.toList_append, List.append_assoc,
      Text.splitAt_of_not_mem hs |>.symm]
    exact Text.splitAt_append '/' _ _

theorem steps_join (d : Path) (hs : IsName s.toList) : (d.join s).steps = d.steps ++ [s] := by
  obtain ⟨init, hpieces, hinit⟩ := pieces_join d hs.slash
  rw [← hinit, steps, hpieces]
  simp [hs.idle]

theorem not_mem_steps_join {d : Path} (h : ".." ∉ d.steps) (hs : IsName s.toList) :
    ".." ∉ (d.join s).steps := by
  rw [steps_join d hs, List.mem_append, List.mem_singleton, not_or]
  exact ⟨h, hs.ne_back.symm⟩

theorem foldl_back {steps : List String} (h : ".." ∉ steps) (done : List String) :
    steps.foldl back done = steps.reverse ++ done := by
  induction steps generalizing done with
  | nil => rfl
  | cons name steps ih =>
    obtain ⟨hne, h⟩ := List.ne_and_not_mem_of_not_mem_cons h
    rw [List.foldl_cons, ih h, back, if_neg hne.symm]
    simp

/-- A path that never leads back goes by its own names. -/
theorem names_eq_steps (h : ".." ∉ p.steps) : p.names = p.steps := by
  rw [names, foldl_back h, List.append_nil, List.reverse_reverse]

theorem names_join (d : Path) (hs : IsName s.toList) : (d.join s).names = d.names ++ [s] := by
  rw [names, steps_join d hs, List.foldl_append, List.foldl_cons, List.foldl_nil, back,
    if_neg hs.ne_back, List.reverse_cons]
  rfl

theorem asksDirectory_join (d : Path) (hs : IsName s.toList) :
    (d.join s).asksDirectory = false := by
  obtain ⟨init, hpieces, -⟩ := pieces_join d hs.slash
  rw [asksDirectory, hpieces, List.getLast?_concat]
  exact hs.idle

theorem dropIdleEnd_concat (hn : isIdle name = false) :
    dropIdleEnd (init ++ [name]) = init ++ [name] := by
  cases init with
  | nil => rfl
  | cons first init => simp [dropIdleEnd, hn]

theorem splitName_append {ext : List Char} (hname : name ≠ []) (hext : '.' ∉ ext) :
    splitName (name ++ '.' :: ext) = (name, some ext) := by
  have htake : ((name ++ '.' :: ext).reverse.takeWhile (· ≠ '.')) = ext.reverse := by
    rw [List.reverse_append, List.reverse_cons, List.append_assoc,
      List.takeWhile_append_of_pos (by
        intro c hc
        simpa using fun he : c = '.' ↦ hext (he ▸ List.mem_reverse.1 hc))]
    simp
  have hdrop : (name ++ '.' :: ext).reverse.drop (ext.reverse.length + 1) = name.reverse := by
    rw [List.reverse_append, List.reverse_cons, List.drop_left' (by simp)]
  simp only [splitName, htake, hdrop, List.reverse_reverse]
  simp [hname]

theorem fileName?_join (d : Path) (hs : IsName s.toList) :
    (d.join s).fileName? = some s.toList := by
  obtain ⟨init, hpieces, -⟩ := pieces_join d hs.slash
  rw [fileName?, hpieces, dropIdleEnd_concat hs.idle, List.getLast?_concat]
  simp [hs.idle, hs.back]

end Path

end Multicloud
