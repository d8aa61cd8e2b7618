import Mathlib.Data.List.Chain
import Multicloud.Proofs.Yaml.Lexer

namespace Multicloud.Yaml

inductive Inline where
  | nothing
  | word (s : List Char)
  | list (words : List (List Char))

namespace Inline

def text : Inline → List Char
  | nothing => []
  | word s => ' ' :: s
  | list words => ' ' :: '[' :: [',', ' '].intercalate words ++ [']']

def tokens : Inline → List Token
  | nothing => []
  | word s => [.scalar .plain s]
  | list words =>
    .flowSequence :: (words.map (Token.scalar .plain)).intersperse .comma ++ [.flowSequenceEnd]

def words : Inline → List (List Char)
  | nothing => []
  | word s => [s]
  | list words => words

end Inline

structure Line where
  indent : Nat
  key : List Char
  value : Inline

namespace Line

def text (line : Line) : List Char :=
  List.replicate line.indent ' ' ++ line.key ++ ':' :: line.value.text ++ ['\n']

/-- A key has to end within 1024 characters. -/
structure Plain (line : Line) : Prop where
  key : isPlainWord line.key = true
  short : line.key.length ≤ 1024
  words : ∀ w ∈ line.value.words, isPlainWord w = true

/-- A word goes on over the lines that stand deeper than its key. -/
def Before (line next : Line) : Prop := ∀ w, line.value = .word w → next.indent ≤ line.indent

end Line

def textOfLines (lines : List Line) : List Char := lines.flatMap Line.text

namespace Line

def tokens (blocks : List Nat) (line : Line) : List Token :=
  ends line.indent blocks ++ (opening line.indent (staying line.indent blocks)).1 ++
    [.key, .scalar .plain line.key, .value] ++ line.value.tokens

def blocks (blocks : List Nat) (line : Line) : List Nat :=
  (opening line.indent (staying line.indent blocks)).2

end Line

def tokensOfLines (blocks : List Nat) : List Line → List Token
  | [] => ends (-1) blocks
  | line :: rest => line.tokens blocks ++ tokensOfLines (line.blocks blocks) rest

namespace Lexer

section Lines

variable {line : Line} {lines : List Line} {blocks : List Nat} {tokens : List Token}
  {s : List Char} {p : Position} {d : Nat}

theorem reads_list {words : List (List Char)} (hwords : ∀ w ∈ words, isPlainWord w = true)
    (hp : d ≤ p.column) :
    ∃ q, Reads (Inline.list words).text.length
      (within (d :: blocks) [none] tokens false ⟨(Inline.list words).text ++ s, p⟩)
      (within (d :: blocks) [none] ((Inline.list words).tokens.reverse ++ tokens) false
        ⟨s, q⟩) := by
  obtain ⟨q, h⟩ := reads_items (d :: blocks) (.flowSequence :: tokens) ((p.next 1).next 1) s hwords
  have hlength : 1 + (([',', ' '].intercalate words).length + 1) ≤
      (Inline.list words).text.length := by
    simp [Inline.text]
    omega
  have hopen := ((reads_open hp).trans h).mono hlength
  exact ⟨q, by simpa [Inline.text, Inline.tokens] using hopen⟩

theorem exists_opening (d : Nat) (blocks : List Nat) :
    ∃ outer, (opening d (staying d blocks)).2 = d :: outer := by
  have hhead := head?_staying d blocks
  rw [opening]
  split
  · exact ⟨_, rfl⟩
  · next h =>
    cases hstaying : staying d blocks with
    | nil => simp [hstaying] at h
    | cons block outer =>
      rw [hstaying] at h hhead
      have : block = d := by
        have := hhead block rfl
        simp at h
        omega
      exact ⟨outer, by rw [this]⟩

theorem reverse_opening (d : Nat) (blocks : List Nat) :
    (opening d blocks).1.reverse = (opening d blocks).1 := by
  rw [opening]
  split <;> rfl

theorem reads_inline (blocks : List Nat) (tokens : List Token) {value : Inline} {d : Nat}
    (hwords : ∀ w ∈ value.words, isPlainWord w = true)
    (hs : ∀ w, value = .word w → EndsWord d s) (hp : d ≤ p.column) :
    ∃ q, q.column = 0 ∧ Reads value.text.length
      (within (d :: blocks) [none] tokens false ⟨value.text ++ '\n' :: s, p⟩)
      (within (d :: blocks) [none] (value.tokens.reverse ++ tokens) true ⟨s, q⟩) := by
  cases value with
  | nothing => exact ⟨p.newline 1, rfl, reads_lineEnd⟩
  | word w =>
    have hw : isPlainWord w = true := hwords w (.head _)
    exact ⟨_, rfl, (reads_word hw (hs w rfl) hp).mono (Nat.le_add_left 1 _)⟩
  | list words =>
    obtain ⟨q, h⟩ := reads_list hwords hp
    exact ⟨_, rfl, h.trans reads_lineEnd⟩

theorem reads_line (blocks : List Nat) (tokens : List Token) (hline : line.Plain)
    (hs : ∀ w, line.value = .word w → EndsWord line.indent s)
    (hp : p.column = 0) :
    ∃ q, q.column = 0 ∧ Reads line.text.length
      (within blocks [none] tokens true ⟨line.text ++ s, p⟩)
      (within (line.blocks blocks) [none] ((line.tokens blocks).reverse ++ tokens) true
        ⟨s, q⟩) := by
  have hgap : isGap (line.value.text ++ '\n' :: s) = true := by
    cases line.value <;> rfl
  obtain ⟨outer, houter⟩ := exists_opening line.indent blocks
  have hkey := reads_key blocks tokens line.indent hline.key hline.short hgap hp
  have hcolumn : line.indent ≤ ((p.next line.indent).next (line.key.length + 1)).column := by
    simp [Position.next]
    omega
  have hlength : 2 + line.value.text.length ≤ line.text.length := by
    have := length_pos_of_isPlainWord hline.key
    simp [Line.text]
    omega
  rw [houter] at hkey
  obtain ⟨q, hq, hvalue⟩ := reads_inline outer _ hline.words hs hcolumn
  have h := (hkey.trans hvalue).mono hlength
  refine ⟨q, hq, ?_⟩
  rw [Line.blocks, houter]
  simpa [Line.text, Line.tokens, ends, reverse_opening] using h

theorem endsWord_of_before {next : Line} (h : line.Before next) (hnext : next.Plain) {w : List Char}
    (hw : line.value = .word w) : EndsWord line.indent (next.text ++ s) := by
  obtain ⟨⟨x, t, hkey, hx⟩, -⟩ := exists_of_isPlainWord hnext.key
  refine .inr ⟨next.indent, x, t ++ ':' :: next.value.text ++ ['\n'] ++ s, ?_, ?_, h w hw⟩
  · simp [Line.text, hkey]
  · simp [isPlainChar, hx]

/-- Line by line, what is read of the lines is told by them. -/
theorem reads_lines (blocks : List Nat) (tokens : List Token)
    (hlines : ∀ line ∈ lines, line.Plain) (hchain : lines.IsChain Line.Before)
    (hp : p.column = 0) :
    ∃ q blocks' tokens', q.column = 0 ∧
      Reads (textOfLines lines).length
        (within blocks [none] tokens true ⟨textOfLines lines, p⟩)
        (within blocks' [none] tokens' true ⟨[], q⟩) ∧
      tokens'.reverse ++ ends (-1) blocks' = tokens.reverse ++ tokensOfLines blocks lines := by
  induction lines generalizing blocks tokens p with
  | nil => exact ⟨p, blocks, tokens, hp, ⟨0, Nat.le_refl 0, fun _ ↦ rfl⟩, rfl⟩
  | cons line lines ih =>
    obtain ⟨hline, hlines⟩ := List.forall_mem_cons.1 hlines
    have hends : ∀ w, line.value = .word w → EndsWord line.indent (textOfLines lines) := by
      intro w hw
      cases lines with
      | nil => exact .inl rfl
      | cons next lines =>
        have hbefore : line.Before next := hchain.rel
        exact endsWord_of_before hbefore (hlines next (.head _)) hw
    obtain ⟨q, hq, hread⟩ := reads_line blocks tokens hline hends hp
    obtain ⟨q', blocks', tokens', hq', hrest, htokens⟩ :=
      ih (line.blocks blocks) ((line.tokens blocks).reverse ++ tokens) hlines hchain.tail hq
    refine ⟨q', blocks', tokens', hq', ?_, ?_⟩
    · have h := hread.trans hrest
      rwa [← List.length_append] at h
    · rw [htokens, tokensOfLines]
      simp

theorem ends_all (blocks : List Nat) :
    ends (-1) blocks = List.replicate blocks.length .blockEnd := by
  have hall : blocks.takeWhile (fun block : Nat ↦ decide ((-1 : Int) < block)) = blocks := by
    rw [List.takeWhile_eq_self_iff]
    intro block _
    simp
    omega
  rw [ends, hall]

theorem ends_staying (column : Int) (blocks : List Nat) :
    ends (-1) (staying column blocks) ++ ends column blocks = ends (-1) blocks := by
  rw [ends_all, ends_all, ends, ← List.replicate_add, staying, Nat.add_comm, ← List.length_append,
    List.takeWhile_append_dropWhile]

theorem run_end (n : Nat) : run (n + 1) (within blocks [none] tokens true ⟨[], p⟩) =
    .ok (tokens.reverse ++ ends (-1) blocks) := by
  have hgap : (within blocks [none] tokens true ⟨[], p⟩).toNextToken =
      within blocks [none] tokens true ⟨[], p⟩ := rfl
  rw [run, hgap, dropStale_none]
  dsimp only [bind, Except.bind]
  rw [column, closeBlocks_within]
  have hfinish : (within (staying p.column blocks) [none] (ends p.column blocks ++ tokens) true
      ⟨[], p⟩).finish = .ok (tokens.reverse ++ ends (-1) blocks) := by
    rw [finish, closeBlocks_within, ← List.append_assoc, ends_staying]
    refine congrArg Except.ok (List.reverse_append.trans ?_)
    rw [ends_all, List.reverse_replicate]
  exact hfinish

end Lines

end Lexer

section Printable

theorem isPrintable_of_isPlainWord {w : List Char} (hw : isPlainWord w = true) :
    w.all isPrintable = true := by
  rw [List.all_eq_true]
  intro x hx
  have := (Lexer.exists_of_isPlainWord hw).2 x hx
  simp_all [isInert]

theorem isPrintable_intercalate {words : List (List Char)}
    (hwords : ∀ w ∈ words, isPlainWord w = true) :
    ([',', ' '].intercalate words).all isPrintable = true := by
  induction words with
  | nil => rfl
  | cons w words ih =>
    obtain ⟨hw, hwords⟩ := List.forall_mem_cons.1 hwords
    have hw := isPrintable_of_isPlainWord hw
    cases words with
    | nil => simpa using hw
    | cons w' words =>
      rw [List.intercalate_cons_cons, List.all_append, List.all_append, hw, ih hwords]
      rfl

theorem isPrintable_inline {value : Inline} (hwords : ∀ w ∈ value.words, isPlainWord w = true) :
    value.text.all isPrintable = true := by
  have hspace : isPrintable ' ' = true := rfl
  cases value with
  | nothing => rfl
  | word w =>
    have hw := isPrintable_of_isPlainWord (hwords w (.head _))
    simp only [Inline.text, List.all_cons, hspace, hw, Bool.and_self]
  | list words =>
    have h : ([',', ' '].intercalate words).all isPrintable = true := isPrintable_intercalate hwords
    simp only [Inline.text, List.all_append, List.all_cons, h]
    rfl

theorem isPrintable_line {line : Line} (hline : line.Plain) : line.text.all isPrintable = true := by
  have hkey := isPrintable_of_isPlainWord hline.key
  have hvalue := isPrintable_inline hline.words
  have hindent : (List.replicate line.indent ' ').all isPrintable = true := by
    rw [List.all_replicate]
    simp [isPrintable]
  simp only [Line.text, List.all_append, List.all_cons, hindent, hkey, hvalue]
  rfl

end Printable

/-- The lines are split into their tokens, and no place in a line is lost. -/
theorem tokens?_textOfLines {lines : List Line} (hlines : ∀ line ∈ lines, line.Plain)
    (hchain : lines.IsChain Line.Before) :
    tokens? (textOfLines lines) = .ok (tokensOfLines [] lines) := by
  have hprintable : (textOfLines lines).all isPrintable = true := by
    rw [textOfLines, List.all_flatMap, List.all_eq_true]
    exact fun line hline ↦ isPrintable_line (hlines line hline)
  obtain ⟨q, blocks, tokens, -, ⟨k, hk, hrun⟩, htokens⟩ :=
    Lexer.reads_lines [] [] hlines hchain (p := ⟨0, 0, 0⟩) rfl
  obtain ⟨n, hn⟩ := Nat.exists_eq_add_of_le hk
  rw [tokens?, if_pos hprintable, hn, Nat.add_comm k, Nat.add_right_comm]
  refine (hrun (n + 1)).trans ?_
  rw [Lexer.run_end, htokens]
  rfl

end Multicloud.Yaml
