import Mathlib.Data.List.TakeWhile
import Multicloud.Yaml.Token.Lexer

namespace Multicloud.Yaml

def isPlainChar (c : Char) : Bool := c.isAlphanum || c = '-' || c = '.' || c = '/'

def isPlainWord : List Char → Bool
  | [] => false
  | c :: s => c.isAlphanum && s.all isPlainChar

/-- The blocks still open at a column, innermost first, of those that were. -/
def staying (column : Int) (blocks : List Nat) : List Nat :=
  blocks.dropWhile fun block : Nat ↦ column < block

def ends (column : Int) (blocks : List Nat) : List Token :=
  List.replicate (blocks.takeWhile fun block : Nat ↦ column < block).length .blockEnd

def opening (column : Nat) (blocks : List Nat) : List Token × List Nat :=
  if blocks.head?.all (· < column) then ([.blockMapping], column :: blocks) else ([], blocks)

section Characters

variable {c : Char}

def isStart (c : Char) : Bool := !isSpace c && !isBreak c && c ≠ '#' && c ≠ '\uFEFF'

def isInert (c : Char) : Bool := isPrintable c && isStart c && c ≠ ':' && !isFlowIndicator c

theorem isAlphanum_iff :
    c.isAlphanum = true ↔ ('A' ≤ c ∧ c ≤ 'Z') ∨ ('a' ≤ c ∧ c ≤ 'z') ∨ ('0' ≤ c ∧ c ≤ '9') := by
  have hranges : c.isAlphanum = ((decide ('A'.val ≤ c.val ∧ c.val ≤ 'Z'.val) ||
      decide ('a'.val ≤ c.val) && decide (c.val ≤ 'z'.val)) ||
        decide ('0'.val ≤ c.val) && decide (c.val ≤ '9'.val)) := rfl
  rw [hranges]
  simp only [Bool.or_eq_true, Bool.and_eq_true, decide_eq_true_eq, or_assoc]
  exact Iff.rfl

theorem toNat_lt_of_isPlainChar (h : isPlainChar c = true) : c.toNat < 128 := by
  have hlast {x : Char} (hc : c ≤ x) (hx : x.toNat < 128) : c.toNat < 128 :=
    Nat.lt_of_le_of_lt (show c.toNat ≤ x.toNat from hc) hx
  simp only [isPlainChar, isAlphanum_iff, Bool.or_eq_true, decide_eq_true_eq] at h
  rcases h with (((h | h | h) | rfl) | rfl) | rfl
  · exact hlast h.2 (by decide)
  · exact hlast h.2 (by decide)
  · exact hlast h.2 (by decide)
  · decide
  · decide
  · decide

theorem isInert_of_isPlainChar (h : isPlainChar c = true) : isInert c = true := by
  have hall : ∀ n < 128, isPlainChar (Char.ofNat n) = true → isInert (Char.ofNat n) = true := by
    decide
  have := hall c.toNat (toNat_lt_of_isPlainChar h)
  rw [Char.ofNat_toNat] at this
  exact this h

end Characters

namespace Position

@[simp] theorem next_next (p : Position) (m n : Nat) : (p.next m).next n = p.next (m + n) := by
  simp [next, Nat.add_assoc]

end Position

section Plain

variable {flow : Bool} {indent d : Nat} {p : Position} {w s acc : List Char} {c : Char}

theorem ne_of_isInert (hc : isInert c = true) {x : Char} (hx : isInert x = false) : c ≠ x := by
  rintro rfl
  rw [hc] at hx
  cases hx

theorem isStart_of_isInert (hc : isInert c = true) : isStart c = true := by
  simp_all [isInert]

theorem isBreak_of_isInert (hc : isInert c = true) : isBreak c = false := by
  simp_all [isInert, isStart]

theorem isSpace_of_isInert (hc : isInert c = true) : isSpace c = false := by
  simp_all [isInert, isStart]

theorem plain_cons_inert (hc : isInert c = true) :
    plain flow indent (c :: s) p {} acc = plain flow indent s (p.next 1) {} (c :: acc) := by
  have hcr : c ≠ '\r' := ne_of_isInert hc (by decide)
  have hcolon : c ≠ ':' := ne_of_isInert hc (by decide)
  have hflow : isFlowIndicator c = false := by simp_all [isInert]
  have hends : endsPlain flow (c :: s) = false := by
    simp [endsPlain, hflow]
  rw [plain.eq_3 _ _ _ _ _ _ _ fun _ h _ ↦ hcr h]
  simp [isBreak_of_isInert hc, isSpace_of_isInert hc, hends, strayColon, hcolon]
  rfl

theorem plain_word (hw : ∀ c ∈ w, isInert c = true) :
    plain flow indent (w ++ s) p {} acc =
      plain flow indent s (p.next w.length) {} (w.reverse ++ acc) := by
  induction w generalizing p acc with
  | nil => rfl
  | cons c w ih =>
    obtain ⟨hc, hw⟩ := List.forall_mem_cons.1 hw
    rw [List.cons_append, plain_cons_inert hc, ih hw, Position.next_next, List.length_cons,
      List.reverse_cons, List.append_assoc, Nat.add_comm]
    rfl

theorem plain_colon (hs : isGap s = true) :
    plain false indent (':' :: s) p {} acc = .ok (acc.reverse, false, ⟨':' :: s, p⟩) := by
  have hstray : strayColon false (':' :: s) = false := by
    cases s <;> rfl
  simp [plain, isBreak, isSpace, endsPlain, hs, hstray]

theorem plain_flowIndicator (hc : isFlowIndicator c = true) :
    plain true indent (c :: s) p {} acc = .ok (acc.reverse, false, ⟨c :: s, p⟩) := by
  simp only [isFlowIndicator, Bool.or_eq_true, decide_eq_true_eq] at hc
  rcases hc with (((rfl | rfl) | rfl) | rfl) | rfl <;>
    simp [plain, isBreak, isSpace, endsPlain, isFlowIndicator, strayColon]

end Plain

namespace Lexer

section Gaps

variable {flow allowed : Bool} {indent d : Nat} {p : Position} {s acc : List Char} {c : Char}

theorem skipGap_start (hc : isStart c = true) :
    skipGap flow (c :: s) p allowed false = (⟨c :: s, p⟩, allowed) := by
  simp [isStart, isSpace] at hc
  have hcr : c ≠ '\r' := by
    rintro rfl
    simp [isBreak] at hc
  rw [skipGap.eq_3 _ _ _ _ _ _ fun _ h _ ↦ hcr h]
  simp [hc]

theorem skipGap_spaces :
    skipGap flow (List.replicate d ' ' ++ s) p allowed false =
      skipGap flow s (p.next d) allowed false := by
  induction d generalizing p with
  | zero => rfl
  | succ d ih =>
    rw [List.replicate_succ, List.cons_append, skipGap.eq_3 _ _ _ _ _ _ (by simp)]
    simp [isBreak, ih, Nat.add_comm]

theorem skipGap_newline :
    skipGap flow ('\n' :: s) p allowed false =
      skipGap flow s (p.newline 1) (allowed || !flow) false := by
  rw [skipGap.eq_3 _ _ _ _ _ _ (by simp)]
  simp [isBreak]

def EndsWord (indent : Nat) (s : List Char) : Prop :=
  s = [] ∨ ∃ d c t, s = List.replicate d ' ' ++ c :: t ∧ isPlainChar c = true ∧ d ≤ indent

theorem plain_spaces {g : Gap} {x : List Char} (hg : g.first = some x) :
    plain flow indent (List.replicate d ' ' ++ s) p g acc =
      plain flow indent s (p.next d) g acc := by
  induction d generalizing p with
  | zero => rfl
  | succ d ih =>
    rw [List.replicate_succ, List.cons_append, plain.eq_3 _ _ _ _ _ _ _ (by simp)]
    have hblank : g.addBlank ' ' = g := by simp [Gap.addBlank, hg]
    simp [isBreak, isSpace, hblank, ih, Nat.add_comm]

theorem plain_newline :
    plain flow indent ('\n' :: s) p {} acc =
      plain flow indent s (p.newline 1) { first := some ['\n'] } acc := by
  rw [plain.eq_3 _ _ _ _ _ _ _ (by simp)]
  simp [isBreak]
  rfl

theorem plain_lineEnd (hs : EndsWord indent s) :
    plain false (indent + 1) ('\n' :: s) p {} acc =
      .ok (acc.reverse, true, (skipGap false s (p.newline 1) true false).1) := by
  rw [plain_newline]
  rcases hs with rfl | ⟨d, c, t, rfl, hc, hd⟩
  · rfl
  · have hinert := isInert_of_isPlainChar hc
    have hcr : c ≠ '\r' := ne_of_isInert hinert (by decide)
    have hcolumn : ((p.newline 1).next d).column < indent + 1 := by
      simp [Position.newline, Position.next]
      omega
    rw [plain_spaces rfl, plain.eq_3 _ _ _ _ _ _ _ fun _ h _ ↦ hcr h, skipGap_spaces,
      skipGap_start (isStart_of_isInert hinert)]
    simp [isBreak_of_isInert hinert, isSpace_of_isInert hinert, endsAtGap, hcolumn]

end Gaps

def indentOf : List Nat → Int
  | [] => -1
  | column :: _ => column

def outerOf : List Nat → List Int
  | [] => []
  | _ :: blocks => indentOf blocks :: outerOf blocks

def within (blocks : List Nat) (keys : List (Option PossibleKey)) (tokens : List Token)
    (allowed : Bool) (c : Cursor) : Lexer where
  cursor := c
  tokens := tokens
  count := tokens.length
  indent := indentOf blocks
  outer := outerOf blocks
  keys := keys
  keyAllowed := allowed

theorem go_cursor (column indent : Int) (outer : List Int) (l : Lexer) :
    (closeBlocks.go column indent outer l).cursor = l.cursor := by
  induction outer generalizing indent l with
  | nil => rfl
  | cons next outer ih =>
    rw [closeBlocks.go]
    split
    · exact ih next (l.push .blockEnd)
    · rfl

theorem closeBlocks_cursor (column : Int) (l : Lexer) :
    (l.closeBlocks column).cursor = l.cursor := by
  rw [closeBlocks]
  split
  · rfl
  · exact go_cursor column l.indent l.outer l

section Within

variable {blocks : List Nat} {key : Option PossibleKey} {keys : List (Option PossibleKey)}
  {tokens : List Token} {allowed : Bool} {c : Cursor}

theorem go_blocks (column : Int) (l : Lexer) :
    closeBlocks.go column (indentOf blocks) (outerOf blocks) l =
      { l with
        tokens := ends column blocks ++ l.tokens
        count := (ends column blocks).length + l.count
        indent := indentOf (staying column blocks)
        outer := outerOf (staying column blocks) } := by
  induction blocks generalizing l with
  | nil => simp [closeBlocks.go, outerOf, staying, ends]
  | cons block blocks ih =>
    rw [outerOf, closeBlocks.go]
    by_cases h : column < indentOf (block :: blocks)
    · have h' : column < (block : Int) := h
      rw [if_pos h, ih]
      simp [h', push, staying, ends, List.replicate_succ', Nat.add_right_comm, ← Nat.add_assoc]
    · have h' : ¬ column < (block : Int) := h
      rw [if_neg h]
      simp [h', staying, ends, outerOf]

theorem closeBlocks_within (column : Int) :
    (within blocks [key] tokens allowed c).closeBlocks column =
      within (staying column blocks) [key] (ends column blocks ++ tokens) allowed c := by
  have hflow : (within blocks [key] tokens allowed c).inFlow = false := rfl
  rw [closeBlocks, hflow]
  simp [within, go_blocks]

theorem closeBlocks_right (h : ∀ block ∈ blocks.head?, block ≤ c.position.column) :
    (within blocks [key] tokens allowed c).closeBlocks c.position.column =
      within blocks [key] tokens allowed c := by
  rw [closeBlocks_within]
  cases blocks with
  | nil => rfl
  | cons block blocks =>
    have hblock : ¬ c.position.column < block := Nat.not_lt.2 (h block rfl)
    simp [staying, ends, hblock]

theorem dropStale_none : (within blocks [none] tokens allowed c).dropStale =
    .ok (within blocks [none] tokens allowed c) := rfl

theorem dropStale_some {k : PossibleKey} (h : isStale c.position k = false) :
    (within blocks [some k] tokens allowed c).dropStale =
      .ok (within blocks [some k] tokens allowed c) := by
  simp [dropStale, within, h]

theorem dropStale_noneFlow : (within blocks [none, none] tokens allowed c).dropStale =
    .ok (within blocks [none, none] tokens allowed c) := rfl

theorem dropStale_flow (h : ∀ k ∈ key, k.required = false) :
    ∃ key', (∀ k ∈ key', k.required = false) ∧
      (within blocks [key, none] tokens allowed c).dropStale =
        .ok (within blocks [key', none] tokens allowed c) := by
  cases key with
  | none => exact ⟨none, nofun, rfl⟩
  | some k =>
    have hk : k.required = false := h k rfl
    cases hstale : isStale c.position k with
    | false => exact ⟨some k, h, by simp [dropStale, within, hk, hstale]⟩
    | true => exact ⟨none, nofun, by simp [dropStale, within, hk, hstale]⟩

theorem dropKey_flow (h : ∀ k ∈ key, k.required = false) :
    (within blocks [key, none] tokens allowed c).dropKey =
      .ok (within blocks [none, none] tokens allowed c) := by
  cases key with
  | none => rfl
  | some k =>
    have hk : k.required = false := h k rfl
    simp [dropKey, within, hk]

theorem toNextToken_start {x : Char} {s : List Char} {p : Position} (hx : isStart x = true) :
    (within blocks keys tokens allowed ⟨x :: s, p⟩).toNextToken =
      within blocks keys tokens allowed ⟨x :: s, p⟩ := by
  simp [toNextToken, within, skipGap_start hx]

theorem toNextToken_spaces {x : Char} {d : Nat} {s : List Char} {p : Position}
    (hx : isStart x = true) :
    (within blocks keys tokens allowed ⟨List.replicate d ' ' ++ x :: s, p⟩).toNextToken =
      within blocks keys tokens allowed ⟨x :: s, p.next d⟩ := by
  simp [toNextToken, within, skipGap_spaces, skipGap_start hx]

theorem token_letter {l : Lexer} {x : Char} {s : List Char} (hl : l.cursor.rest = x :: s)
    (hx : x.isAlphanum = true) : l.token = l.plainScalar := by
  have hne {y : Char} (hy : y.isAlphanum = false) : x ≠ y := by
    rintro rfl
    rw [hx] at hy
    cases hy
  have hplain : isPlainChar x = true := by simp [isPlainChar, hx]
  have hinert := isInert_of_isPlainChar hplain
  have hmark : isDocumentMark (x :: s) = false := by
    unfold isDocumentMark
    split
    · next h => exact absurd (List.cons.inj h).1 (hne (by decide))
    · next h => exact absurd (List.cons.inj h).1 (hne (by decide))
    · rfl
  have hindicator : isIndicator x = false := by
    rw [isIndicator, Bool.eq_false_iff, Ne, List.contains_iff_mem]
    intro hmem
    have hall : ("-?:,[]\x7b\x7d#&*!|>'\"%@\x60".toList.all fun y ↦ !y.isAlphanum) = true := rfl
    have := List.all_eq_true.1 hall x hmem
    rw [hx] at this
    cases this
  have hstarts : startsPlain l.inFlow (x :: s) = true := by
    simp [startsPlain, isGap, isSpace_of_isInert hinert, isBreak_of_isInert hinert, hindicator]
  rw [token]
  simp [hl, hmark, hstarts, hne]

end Within

theorem run_congr {l l' : Lexer} (h : l.toNextToken = l'.toNextToken) (n : Nat) :
    run n l = run n l' := by
  cases n with
  | zero => rfl
  | succ n => rw [run, run, h]

/-- At most that many tokens on, with as many steps left, the one is the other. -/
def Reads (m : Nat) (l l' : Lexer) : Prop := ∃ k ≤ m, ∀ n, run (n + k) l = run n l'

section Reads

variable {l l' l'' : Lexer} {m n : Nat}

theorem Reads.trans (h : Reads m l l') (h' : Reads n l' l'') : Reads (m + n) l l'' := by
  obtain ⟨j, hj, h⟩ := h
  obtain ⟨k, hk, h'⟩ := h'
  refine ⟨k + j, by omega, fun n ↦ ?_⟩
  rw [← Nat.add_assoc, h, h']

theorem Reads.mono (h : Reads m l l') (hm : m ≤ n) : Reads n l l' := by
  obtain ⟨k, hk, h⟩ := h
  exact ⟨k, Nat.le_trans hk hm, h⟩

theorem reads_gap (h : l.toNextToken = l'.toNextToken) : Reads 0 l l' :=
  ⟨0, Nat.le_refl _, run_congr h⟩

theorem reads_token {k : Lexer} (hgap : l.toNextToken.dropStale = .ok k)
    (hrest : k.cursor.rest ≠ []) (htoken : (k.closeBlocks k.column).token = .ok l') :
    Reads 1 l l' := by
  refine ⟨1, Nat.le_refl _, fun n ↦ ?_⟩
  have hempty : (k.closeBlocks k.column).cursor.rest.isEmpty = false := by
    rw [closeBlocks_cursor]
    exact List.isEmpty_eq_false_iff.2 hrest
  rw [run, hgap]
  simp only [bind, Except.bind, hempty, Bool.false_eq_true, ↓reduceIte, htoken]

end Reads

section Keys

variable {blocks : List Nat} {tokens : List Token} {w s : List Char} {p : Position} {d : Nat}

theorem exists_of_isPlainWord (hw : isPlainWord w = true) :
    (∃ x t, w = x :: t ∧ x.isAlphanum = true) ∧ ∀ x ∈ w, isInert x = true := by
  cases w with
  | nil => cases hw
  | cons x t =>
    simp only [isPlainWord, Bool.and_eq_true, List.all_eq_true] at hw
    have hx : isPlainChar x = true := by simp [isPlainChar, hw.1]
    exact ⟨⟨x, t, rfl, hw.1⟩, List.forall_mem_cons.2 ⟨isInert_of_isPlainChar hx,
      fun y hy ↦ isInert_of_isPlainChar (hw.2 y hy)⟩⟩

theorem plainScalar_eq_ok {l l' : Lexer} {text : List Char} {multiline : Bool} {c : Cursor}
    (hmark : l.markKey = .ok l')
    (hplain : plain l'.inFlow (l'.indent + 1).toNat l'.cursor.rest l'.cursor.position {} [] =
      .ok (text, multiline, c)) :
    l.plainScalar =
      .ok (({ l' with cursor := c }.push (.scalar .plain text)).allowKey multiline) := by
  rw [plainScalar, hmark]
  dsimp only [bind, Except.bind]
  rw [hplain]
  rfl

section Scalars

variable (keys : List (Option PossibleKey)) (c : Cursor) {text : List Char} {multiline : Bool}
  {c' : Cursor}

theorem plainScalar_allowed
    (hplain : plain (!keys.isEmpty) (indentOf blocks + 1).toNat c.rest c.position {} [] =
      .ok (text, multiline, c')) :
    (within blocks (none :: keys) tokens true c).plainScalar =
      .ok (within blocks
        (some ⟨keys.isEmpty && indentOf blocks = c.position.column, tokens.length, c.position⟩ ::
          keys) (.scalar .plain text :: tokens) multiline c') := by
  have hflow (key : Option PossibleKey) :
      (within blocks (key :: keys) tokens true c).inFlow = !keys.isEmpty := by
    cases keys <;> rfl
  have hmark : (within blocks (none :: keys) tokens true c).markKey =
      .ok (within blocks
        (some ⟨keys.isEmpty && indentOf blocks = c.position.column, tokens.length, c.position⟩ ::
          keys) tokens true c) := by
    rw [markKey, hflow, Bool.not_not]
    rfl
  exact plainScalar_eq_ok hmark ((hflow _).symm ▸ hplain)

theorem plainScalar_block
    (hplain : plain false (indentOf blocks + 1).toNat c.rest c.position {} [] =
      .ok (text, multiline, c')) :
    (within blocks [none] tokens false c).plainScalar =
      .ok (within blocks [none] (.scalar .plain text :: tokens) multiline c') := by
  have hmark : (within blocks [none] tokens false c).markKey =
      .ok (within blocks [none] tokens false c) := rfl
  exact plainScalar_eq_ok hmark hplain

end Scalars

theorem reads_keyWord (hw : isPlainWord w = true) (hs : isGap s = true) (hp : p.column = 0) :
    Reads 1 (within blocks [none] tokens true ⟨List.replicate d ' ' ++ (w ++ ':' :: s), p⟩)
      (within (staying d blocks)
        [some ⟨indentOf (staying d blocks) = d, (ends d blocks ++ tokens).length, p.next d⟩]
        (.scalar .plain w :: (ends d blocks ++ tokens)) false
        ⟨':' :: s, (p.next d).next w.length⟩) := by
  obtain ⟨⟨x, t, rfl, hx⟩, hinert⟩ := exists_of_isPlainWord hw
  have hstart : isStart x = true := isStart_of_isInert (hinert x (.head _))
  have hcolumn : (p.next d).column = d := by simp [Position.next, hp]
  apply reads_token
  · rw [List.cons_append, toNextToken_spaces hstart, dropStale_none]
  · simp [within]
  · have hplain : plain false (indentOf (staying d blocks) + 1).toNat (x :: t ++ ':' :: s)
        (p.next d) {} [] =
          .ok (x :: t, false, ⟨':' :: s, (p.next d).next (x :: t).length⟩) := by
      rw [plain_word hinert, plain_colon hs, List.append_nil, List.reverse_reverse]
    have hcolumn' :
        (within blocks [none] tokens true ⟨x :: (t ++ ':' :: s), p.next d⟩).column = d :=
      congrArg Nat.cast hcolumn
    rw [hcolumn', closeBlocks_within, token_letter rfl hx]
    refine (plainScalar_allowed [] ⟨x :: (t ++ ':' :: s), p.next d⟩ hplain).trans ?_
    rw [hcolumn]
    simp

theorem token_colon {l : Lexer} (hl : l.cursor.rest = ':' :: s) (hs : isGap s = true) :
    l.token = l.value := by
  simp [token, hl, hs, isDocumentMark]

theorem value_within {k : PossibleKey} {t : Token} {c : Cursor} (hk : k.token = tokens.length)
    (hcolumn : k.position.column = d) :
    (within blocks [some k] (t :: tokens) false c).value =
      .ok (within (opening d blocks).2 [none]
        (.value :: t :: .key :: ((opening d blocks).1 ++ tokens)) false (c.skip 1)) := by
  have hopens : indentOf blocks < (d : Int) ↔ blocks.head?.all (· < d) = true := by
    cases blocks with
    | nil =>
      have : (-1 : Int) < d := by omega
      simpa [indentOf]
    | cons block blocks => simp [indentOf]
  have hinsert : (within blocks [some k] (t :: tokens) false c).insert k.token .key =
      within blocks [some k] (t :: .key :: tokens) false c := by
    simp [Lexer.insert, within, hk]
  have hopen : (within blocks [some k] (t :: .key :: tokens) false c).openBlock d k.token
      .blockMapping = within (opening d blocks).2 [some k]
        (t :: .key :: ((opening d blocks).1 ++ tokens)) false c := by
    rw [openBlock, opening]
    by_cases h : blocks.head?.all (· < d) = true
    · have hindent : indentOf (d :: blocks) = d := rfl
      have houter : outerOf (d :: blocks) = indentOf blocks :: outerOf blocks := rfl
      have hplace : tokens.length + 1 + 1 - tokens.length = 2 := by omega
      rw [if_pos h]
      simp [Lexer.insert, within, inFlow, hopens.2 h, hk, hindent, houter, hplace]
    · rw [if_neg h]
      simp [within, inFlow, mt hopens.1 h]
  have hkeys : (within blocks [some k] (t :: tokens) false c).keys = [some k] := rfl
  rw [value, hkeys]
  dsimp only
  rw [hinsert, hcolumn, hopen]
  rfl

theorem reads_colon {k : PossibleKey} {t : Token} {m : Nat} (hk : k.token = tokens.length)
    (hcolumn : k.position.column = d) (hm : m ≤ 1024) (hblocks : ∀ block ∈ blocks.head?, block ≤ d)
    (hs : isGap s = true) :
    Reads 1 (within blocks [some k] (t :: tokens) false ⟨':' :: s, k.position.next m⟩)
      (within (opening d blocks).2 [none]
        (.value :: t :: .key :: ((opening d blocks).1 ++ tokens)) false
        ⟨s, k.position.next (m + 1)⟩) := by
  have hstale : isStale (k.position.next m) k = false := by
    simp [isStale, Position.next, hm]
  apply reads_token
  · rw [toNextToken_start (by decide), dropStale_some hstale]
  · simp [within]
  · have hright : ∀ block ∈ blocks.head?, block ≤ (k.position.next m).column := by
      intro block hblock
      have := hblocks block hblock
      simp [Position.next]
      omega
    rw [column]
    refine (congrArg token (closeBlocks_right hright)).trans ?_
    exact (token_colon rfl hs).trans (value_within hk hcolumn)

theorem head?_staying (d : Nat) (blocks : List Nat) :
    ∀ block ∈ (staying d blocks).head?, block ≤ d := by
  intro block hblock
  have h := List.head?_dropWhile_not (fun block : Nat ↦ decide ((d : Int) < block)) blocks
  rw [staying] at hblock
  rw [hblock] at h
  simpa using h

theorem reads_key (blocks : List Nat) (tokens : List Token) (d : Nat) (hw : isPlainWord w = true)
    (hshort : w.length ≤ 1024) (hs : isGap s = true) (hp : p.column = 0) :
    Reads 2 (within blocks [none] tokens true ⟨List.replicate d ' ' ++ (w ++ ':' :: s), p⟩)
      (within (opening d (staying d blocks)).2 [none]
        (.value :: .scalar .plain w :: .key ::
          ((opening d (staying d blocks)).1 ++ (ends d blocks ++ tokens)))
        false ⟨s, (p.next d).next (w.length + 1)⟩) := by
  have hcolumn : (p.next d).column = d := by simp [Position.next, hp]
  let k : PossibleKey :=
    ⟨indentOf (staying d blocks) = d, (ends d blocks ++ tokens).length, p.next d⟩
  have hblocks := head?_staying d blocks
  exact (reads_keyWord hw hs hp).trans (reads_colon (k := k) rfl hcolumn hshort hblocks hs)

end Keys

section Values

variable {blocks : List Nat} {tokens : List Token} {w s : List Char} {p : Position} {d : Nat}

theorem toNextToken_block {key : Option PossibleKey} {allowed : Bool} :
    (within blocks [key] tokens allowed ⟨s, p⟩).toNextToken =
      within blocks [key] tokens (skipGap false s p allowed false).2
        (skipGap false s p allowed false).1 := rfl

theorem reads_lineEnd : Reads 0 (within blocks [none] tokens false ⟨'\n' :: s, p⟩)
    (within blocks [none] tokens true ⟨s, p.newline 1⟩) := by
  apply reads_gap
  rw [toNextToken_block, toNextToken_block, skipGap_newline]
  rfl

/-- What is before a word that goes on with the next line has been skipped with it. -/
theorem reads_skipped (hs : EndsWord d s) :
    Reads 0 (within blocks [none] tokens true (skipGap false s p true false).1)
      (within blocks [none] tokens true ⟨s, p⟩) := by
  apply reads_gap
  rcases hs with rfl | ⟨n, c, t, rfl, hc, -⟩
  · rfl
  · have hstart := isStart_of_isInert (isInert_of_isPlainChar hc)
    rw [skipGap_spaces, skipGap_start hstart, toNextToken_start hstart, toNextToken_spaces hstart]

theorem reads_word (hw : isPlainWord w = true) (hs : EndsWord d s) (hp : d ≤ p.column) :
    Reads 1 (within (d :: blocks) [none] tokens false ⟨' ' :: (w ++ '\n' :: s), p⟩)
      (within (d :: blocks) [none] (.scalar .plain w :: tokens) true
        ⟨s, ((p.next 1).next w.length).newline 1⟩) := by
  obtain ⟨⟨x, t, rfl, hx⟩, hinert⟩ := exists_of_isPlainWord hw
  have hstart : isStart x = true := isStart_of_isInert (hinert x (.head _))
  have hplain : plain false (indentOf (d :: blocks) + 1).toNat (x :: t ++ '\n' :: s)
      (p.next 1) {} [] = .ok (x :: t, true,
        (skipGap false s (((p.next 1).next (x :: t).length).newline 1) true false).1) := by
    have hindent : (indentOf (d :: blocks) + 1).toNat = d + 1 := rfl
    rw [plain_word hinert, hindent, plain_lineEnd hs, List.append_nil, List.reverse_reverse]
  refine Reads.trans (m := 1) (n := 0) ?_ (reads_skipped hs)
  apply reads_token
  · exact (congrArg dropStale (toNextToken_spaces (d := 1) hstart)).trans dropStale_none
  · simp [within]
  · have hright : ∀ block ∈ (d :: blocks).head?, block ≤ (p.next 1).column := by
      simp [Position.next]
      omega
    refine (congrArg token (closeBlocks_right hright)).trans ?_
    rw [token_letter rfl hx]
    exact plainScalar_block ⟨x :: (t ++ '\n' :: s), p.next 1⟩ hplain

theorem reads_open (hp : d ≤ p.column) :
    Reads 1 (within (d :: blocks) [none] tokens false ⟨' ' :: '[' :: s, p⟩)
      (within (d :: blocks) [none, none] (.flowSequence :: tokens) true
        ⟨s, (p.next 1).next 1⟩) := by
  apply reads_token
  · exact (congrArg dropStale (toNextToken_spaces (d := 1) (by decide))).trans dropStale_none
  · simp [within]
  · have hright : ∀ block ∈ (d :: blocks).head?, block ≤ (p.next 1).column := by
      simp [Position.next]
      omega
    refine (congrArg token (closeBlocks_right hright)).trans ?_
    simp [token, within, isDocumentMark]
    rfl

end Values

section Lists

variable {blocks : List Nat} {tokens : List Token} {key : Option PossibleKey} {allowed : Bool}
  {w s : List Char} {p : Position} {d : Nat} {x : Char}

theorem closeBlocks_flow {c : Cursor} (column : Int) :
    (within blocks [key, none] tokens allowed c).closeBlocks column =
      within blocks [key, none] tokens allowed c := rfl

theorem reads_item (blocks : List Nat) (tokens : List Token) (p : Position) (d : Nat)
    (s : List Char) (hw : isPlainWord w = true) (hx : isFlowIndicator x = true) :
    ∃ k : PossibleKey, k.required = false ∧
      Reads 1 (within blocks [none, none] tokens true ⟨List.replicate d ' ' ++ (w ++ x :: s), p⟩)
        (within blocks [some k, none] (.scalar .plain w :: tokens) false
          ⟨x :: s, (p.next d).next w.length⟩) := by
  obtain ⟨⟨y, t, rfl, hy⟩, hinert⟩ := exists_of_isPlainWord hw
  have hstart : isStart y = true := isStart_of_isInert (hinert y (.head _))
  have hplain : plain true (indentOf blocks + 1).toNat (y :: t ++ x :: s) (p.next d) {} [] =
      .ok (y :: t, false, ⟨x :: s, (p.next d).next (y :: t).length⟩) := by
    rw [plain_word hinert, plain_flowIndicator hx, List.append_nil, List.reverse_reverse]
  refine ⟨⟨false, tokens.length, p.next d⟩, rfl, ?_⟩
  apply reads_token
  · rw [List.cons_append, toNextToken_spaces hstart, dropStale_noneFlow]
  · simp [within]
  · rw [closeBlocks_flow, token_letter rfl hy]
    exact plainScalar_allowed [none] ⟨y :: (t ++ x :: s), p.next d⟩ hplain

theorem token_comma {l : Lexer} (hl : l.cursor.rest = ',' :: s) : l.token = l.comma := by
  simp [token, hl, isDocumentMark]

theorem token_close {l : Lexer} (hl : l.cursor.rest = ']' :: s) :
    l.token = l.closeFlow .flowSequenceEnd := by
  simp [token, hl, isDocumentMark]

theorem reads_comma (hkey : ∀ k ∈ key, k.required = false) :
    Reads 1 (within blocks [key, none] tokens allowed ⟨',' :: s, p⟩)
      (within blocks [none, none] (.comma :: tokens) true ⟨s, p.next 1⟩) := by
  obtain ⟨key', hkey', hstale⟩ := dropStale_flow hkey
  apply reads_token
  · rw [toNextToken_start (by decide), hstale]
  · simp [within]
  · rw [closeBlocks_flow, token_comma rfl, comma, dropKey_flow hkey']
    rfl

theorem reads_close (hkey : ∀ k ∈ key, k.required = false) :
    Reads 1 (within blocks [key, none] tokens allowed ⟨']' :: s, p⟩)
      (within blocks [none] (.flowSequenceEnd :: tokens) false ⟨s, p.next 1⟩) := by
  obtain ⟨key', hkey', hstale⟩ := dropStale_flow hkey
  apply reads_token
  · rw [toNextToken_start (by decide), hstale]
  · simp [within]
  · rw [closeBlocks_flow, token_close rfl, closeFlow, dropKey_flow hkey']
    rfl

theorem length_pos_of_isPlainWord (hw : isPlainWord w = true) : 1 ≤ w.length := by
  cases w with
  | nil => cases hw
  | cons => exact Nat.succ_le_succ (Nat.zero_le _)

theorem reads_words {words : List (List Char)} (hw : isPlainWord w = true)
    (hwords : ∀ w ∈ words, isPlainWord w = true) :
    ∃ q, Reads (([',', ' '].intercalate (w :: words)).length + 1)
      (within blocks [none, none] tokens true
        ⟨List.replicate d ' ' ++ ([',', ' '].intercalate (w :: words) ++ ']' :: s), p⟩)
      (within blocks [none]
        (.flowSequenceEnd ::
          ((((w :: words).map (Token.scalar .plain)).intersperse .comma).reverse ++ tokens))
        false ⟨s, q⟩) := by
  have hlength := length_pos_of_isPlainWord hw
  induction words generalizing w d tokens p with
  | nil =>
    obtain ⟨k, hk, hitem⟩ := reads_item blocks tokens p d s hw (x := ']') rfl
    have hkey : ∀ k' ∈ some k, k'.required = false := by simpa using hk
    have h := (hitem.trans (reads_close hkey)).mono (Nat.succ_le_succ hlength)
    exact ⟨_, by simpa using h⟩
  | cons w' words ih =>
    obtain ⟨hw', hwords⟩ := List.forall_mem_cons.1 hwords
    obtain ⟨k, hk, hitem⟩ := reads_item blocks tokens p d
      (' ' :: ([',', ' '].intercalate (w' :: words) ++ ']' :: s)) hw (x := ',') rfl
    have hkey : ∀ k' ∈ some k, k'.required = false := by simpa using hk
    obtain ⟨q, hrest⟩ := ih hw' hwords (length_pos_of_isPlainWord hw') (d := 1)
    have h := (hitem.trans ((reads_comma hkey).trans hrest)).mono
      (n := ([',', ' '].intercalate (w :: w' :: words)).length + 1) (by
        rw [List.intercalate_cons_cons]
        simp
        omega)
    refine ⟨q, ?_⟩
    simpa [List.intercalate_cons_cons] using h

theorem reads_items (blocks : List Nat) (tokens : List Token) (p : Position) (s : List Char)
    {words : List (List Char)} (hwords : ∀ w ∈ words, isPlainWord w = true) :
    ∃ q, Reads (([',', ' '].intercalate words).length + 1)
      (within blocks [none, none] tokens true ⟨[',', ' '].intercalate words ++ ']' :: s, p⟩)
      (within blocks [none]
        (.flowSequenceEnd :: (((words.map (Token.scalar .plain)).intersperse .comma).reverse ++
          tokens)) false ⟨s, q⟩) := by
  cases words with
  | nil => exact ⟨_, reads_close nofun⟩
  | cons w words =>
    obtain ⟨hw, hwords⟩ := List.forall_mem_cons.1 hwords
    exact reads_words (d := 0) hw hwords

end Lists

end Lexer

end Multicloud.Yaml
