import Multicloud.Proofs.Fallible
import Multicloud.Proofs.Yaml.Lines
import Multicloud.Proofs.Yaml.Reading

namespace Multicloud.Yaml

/-- The entries of a mapping, one after the other. -/
inductive Layout where
  | done
  | word (key w : List Char) (rest : Layout)
  | list (key : List Char) (words : List (List Char)) (rest : Layout)
  | block (key : List Char) (inner rest : Layout)

namespace Layout

def isDone : Layout → Bool
  | done => true
  | _ => false

def isKey (key : List Char) : Bool := isPlainWord key && key.length ≤ 1024

def isPlain : Layout → Bool
  | done => true
  | word key w rest => isKey key && isPlainWord w && rest.isPlain
  | list key words rest => isKey key && words.all isPlainWord && rest.isPlain
  | block key inner rest => isKey key && !inner.isDone && inner.isPlain && rest.isPlain

def lines (column : Nat) : Layout → List Line
  | done => []
  | word key w rest => ⟨column, key, .word w⟩ :: rest.lines column
  | list key words rest => ⟨column, key, .list words⟩ :: rest.lines column
  | block key inner rest =>
    ⟨column, key, .nothing⟩ :: (inner.lines (column + 2) ++ rest.lines column)

def text (l : Layout) : List Char := textOfLines (l.lines 0)

def tokens : Layout → List Token
  | done => []
  | word key w rest => [.key, .scalar .plain key, .value, .scalar .plain w] ++ rest.tokens
  | list key words rest =>
    [.key, .scalar .plain key, .value] ++ (Inline.list words).tokens ++ rest.tokens
  | block key inner rest =>
    [.key, .scalar .plain key, .value, .blockMapping] ++ inner.tokens ++ .blockEnd :: rest.tokens

def nodeOf (w : List Char) : Node := .scalar {} .plain w

def entries : Layout → List (Node × Node)
  | done => []
  | word key w rest => (nodeOf key, nodeOf w) :: rest.entries
  | list key words rest => (nodeOf key, .sequence {} (words.map nodeOf)) :: rest.entries
  | block key inner rest => (nodeOf key, .mapping {} inner.entries) :: rest.entries

section Lines

variable {l : Layout} {column : Nat}

theorem le_indent : ∀ line ∈ l.lines column, column ≤ line.indent := by
  induction l generalizing column with
  | done => nofun
  | word key w rest ih => exact List.forall_mem_cons.2 ⟨Nat.le_refl _, ih⟩
  | list key words rest ih => exact List.forall_mem_cons.2 ⟨Nat.le_refl _, ih⟩
  | block key inner rest ihInner ih =>
    refine List.forall_mem_cons.2 ⟨Nat.le_refl _, List.forall_mem_append.2 ⟨?_, ih⟩⟩
    exact fun line hline ↦ Nat.le_trans (Nat.le_add_right _ 2) (ihInner line hline)

theorem head?_indent : ∀ line ∈ (l.lines column).head?, line.indent = column := by
  cases l with
  | done => nofun
  | _ =>
    intro line hline
    cases hline
    rfl

theorem plain_lines (hl : l.isPlain = true) : ∀ line ∈ l.lines column, line.Plain := by
  induction l generalizing column with
  | done => nofun
  | word key w rest ih =>
    simp only [isPlain, isKey, Bool.and_eq_true, decide_eq_true_eq] at hl
    obtain ⟨⟨⟨hkey, hshort⟩, hw⟩, hrest⟩ := hl
    refine List.forall_mem_cons.2 ⟨⟨hkey, hshort, ?_⟩, ih hrest⟩
    simpa [Inline.words] using hw
  | list key words rest ih =>
    simp only [isPlain, isKey, Bool.and_eq_true, decide_eq_true_eq, List.all_eq_true] at hl
    obtain ⟨⟨⟨hkey, hshort⟩, hwords⟩, hrest⟩ := hl
    exact List.forall_mem_cons.2 ⟨⟨hkey, hshort, hwords⟩, ih hrest⟩
  | block key inner rest ihInner ih =>
    simp only [isPlain, isKey, Bool.and_eq_true, decide_eq_true_eq] at hl
    obtain ⟨⟨⟨⟨hkey, hshort⟩, -⟩, hinner⟩, hrest⟩ := hl
    refine List.forall_mem_cons.2 ⟨⟨hkey, hshort, nofun⟩, ?_⟩
    exact List.forall_mem_append.2 ⟨ihInner hinner, ih hrest⟩

theorem before_head (line : Line) (hline : column ≤ line.indent) (rest : Layout) :
    ∀ next ∈ (rest.lines column).head?, line.Before next :=
  fun next hnext _ _ ↦ (head?_indent next hnext).symm ▸ hline

theorem before_lines : (l.lines column).IsChain Line.Before := by
  induction l generalizing column with
  | done => exact .nil
  | word key w rest ih =>
    exact List.isChain_cons.2 ⟨before_head ⟨column, key, .word w⟩ (Nat.le_refl _) rest, ih⟩
  | list key words rest ih => exact List.isChain_cons.2 ⟨nofun, ih⟩
  | block key inner rest ihInner ih =>
    refine List.isChain_cons.2 ⟨nofun, List.isChain_append.2 ⟨ihInner, ih, fun line hline ↦ ?_⟩⟩
    have hindent : column + 2 ≤ line.indent := le_indent line (List.mem_of_getLast? hline)
    exact before_head line (Nat.le_trans (Nat.le_add_right _ 2) hindent) rest

theorem tokens?_text (hl : l.isPlain = true) :
    tokens? l.text = .ok (tokensOfLines [] (l.lines 0)) :=
  tokens?_textOfLines (plain_lines hl) before_lines

end Lines

section Tokens

variable {l : Layout} {d column : Nat} {blocks : List Nat} {lines : List Line}

theorem tokens_go (line : Line) (blocks : List Nat) :
    line.tokens (line.indent :: blocks) =
        [.key, .scalar .plain line.key, .value] ++ line.value.tokens ∧
      line.blocks (line.indent :: blocks) = line.indent :: blocks := by
  simp [Line.tokens, Line.blocks, staying, ends, opening]

theorem tokensOfLines_open (hblocks : blocks.head?.all (· < d) = true) (hne : lines ≠ [])
    (hlines : ∀ line ∈ lines.head?, line.indent = d) :
    tokensOfLines blocks lines = .blockMapping :: tokensOfLines (d :: blocks) lines := by
  cases lines with
  | nil => exact absurd rfl hne
  | cons line lines =>
    obtain rfl := hlines line rfl
    have hfirst : ∀ block ∈ blocks.head?, ¬ (line.indent : Int) < block := by
      intro block hblock
      rw [Option.mem_def.1 hblock] at hblocks
      simp at hblocks
      omega
    have hstay : staying line.indent blocks = blocks := by
      cases blocks with
      | nil => rfl
      | cons block blocks => simpa [staying] using hfirst block rfl
    have hends : ends line.indent blocks = [] := by
      cases blocks with
      | nil => rfl
      | cons block blocks => simpa [ends] using hfirst block rfl
    have hopening : opening line.indent blocks = ([.blockMapping], line.indent :: blocks) :=
      if_pos hblocks
    obtain ⟨htokens, hblocks'⟩ := tokens_go line blocks
    rw [tokensOfLines, tokensOfLines, htokens, hblocks', Line.tokens, Line.blocks, hstay, hends,
      hopening]
    rfl

theorem tokensOfLines_close (blocks : List Nat) (hlines : ∀ line ∈ lines.head?, line.indent < d) :
    tokensOfLines (d :: blocks) lines = .blockEnd :: tokensOfLines blocks lines := by
  cases lines with
  | nil =>
    rw [tokensOfLines, tokensOfLines, Lexer.ends_all, Lexer.ends_all]
    rfl
  | cons line lines =>
    have hd : line.indent < d := hlines line rfl
    have hstay : staying line.indent (d :: blocks) = staying line.indent blocks := by
      simp [staying, hd]
    have hends : ends line.indent (d :: blocks) = .blockEnd :: ends line.indent blocks := by
      simp [ends, hd, List.replicate_succ]
    rw [tokensOfLines, tokensOfLines, Line.tokens, Line.tokens, Line.blocks, Line.blocks, hstay,
      hends]
    rfl

theorem tokensOfLines_layout (blocks : List Nat) (hl : l.isPlain = true)
    (hlines : ∀ line ∈ lines.head?, line.indent ≤ column) :
    tokensOfLines (column :: blocks) (l.lines column ++ lines) =
      l.tokens ++ tokensOfLines (column :: blocks) lines := by
  induction l generalizing column blocks lines with
  | done => rfl
  | word key w rest ih =>
    simp only [isPlain, Bool.and_eq_true] at hl
    obtain ⟨htokens, hblocks⟩ := tokens_go ⟨column, key, .word w⟩ blocks
    rw [Layout.lines, List.cons_append, tokensOfLines, htokens, hblocks]
    dsimp only
    rw [ih _ hl.2 hlines]
    simp [tokens, Inline.tokens]
  | list key words rest ih =>
    simp only [isPlain, Bool.and_eq_true] at hl
    obtain ⟨htokens, hblocks⟩ := tokens_go ⟨column, key, .list words⟩ blocks
    rw [Layout.lines, List.cons_append, tokensOfLines, htokens, hblocks]
    dsimp only
    rw [ih _ hl.2 hlines]
    simp [tokens]
  | block key inner rest ihInner ih =>
    simp only [isPlain, Bool.and_eq_true, Bool.not_eq_true'] at hl
    obtain ⟨⟨⟨-, hdone⟩, hinner⟩, hrest⟩ := hl
    obtain ⟨htokens, hblocks⟩ := tokens_go ⟨column, key, .nothing⟩ blocks
    have hafter : ∀ line ∈ (rest.lines column ++ lines).head?, line.indent ≤ column := by
      intro line hline
      rw [List.head?_append, Option.mem_def, Option.or_eq_some_iff] at hline
      rcases hline with hline | ⟨-, hline⟩
      · exact Nat.le_of_eq (head?_indent line hline)
      · exact hlines line hline
    have hne : inner.lines (column + 2) ≠ [] := by
      cases inner with
      | done => cases hdone
      | _ => exact List.cons_ne_nil _ _
    have hopen : ∀ line ∈ (inner.lines (column + 2) ++ (rest.lines column ++ lines)).head?,
        line.indent = column + 2 := by
      rw [List.head?_append_of_ne_nil _ hne]
      exact head?_indent
    have hdeeper : (column :: blocks).head?.all (· < column + 2) = true := by simp
    have hinside := ihInner (column :: blocks) hinner fun line hline ↦
      Nat.le_trans (hafter line hline) (Nat.le_add_right _ 2)
    have hclose := tokensOfLines_close (column :: blocks) fun line hline ↦
      Nat.lt_of_le_of_lt (hafter line hline) (Nat.lt_add_of_pos_right (n := column) Nat.two_pos)
    rw [Layout.lines, List.cons_append, List.append_assoc, tokensOfLines, htokens, hblocks]
    dsimp only
    rw [tokensOfLines_open hdeeper (List.append_ne_nil_of_left_ne_nil hne _) hopen, hinside,
      hclose, ih _ hrest hlines]
    simp [tokens, Inline.tokens]

theorem tokensOfLines_lines (hl : l.isPlain = true) (hdone : l.isDone = false) :
    tokensOfLines [] (l.lines 0) = .blockMapping :: l.tokens ++ [.blockEnd] := by
  have hne : l.lines 0 ≠ [] := by
    cases l with
    | done => cases hdone
    | _ => exact List.cons_ne_nil _ _
  have h : tokensOfLines [0] (l.lines 0 ++ []) = l.tokens ++ tokensOfLines [0] [] :=
    tokensOfLines_layout [] hl nofun
  rw [List.append_nil] at h
  rw [tokensOfLines_open rfl hne head?_indent, h]
  rfl

end Tokens

section Parsing

variable {l : Layout} {fuel : Nat} {ns : Node.Names} {rest : List Token}

theorem parse_scalar (w : List Char) (blockAllowed indentless : Bool) :
    Node.parse (fuel + 1) blockAllowed indentless ns (.scalar .plain w :: rest) =
      .ok (nodeOf w, ns, rest) := by
  simp [Node.parse, Node.marks, Node.unmarked, nodeOf]
  rfl

theorem flowItems_end (first : Bool) :
    Node.flowItems (fuel + 1) first ns (.flowSequenceEnd :: rest) = .ok ([], ns, rest) := by
  rw [Node.flowItems]

theorem flowItems_scalar (w : List Char) {items : List Node} {ns' : Node.Names} {rest' : List Token}
    (h : Node.flowItems (fuel + 1) false ns rest = .ok (items, ns', rest')) :
    Node.flowItems (fuel + 2) true ns (.scalar .plain w :: rest) =
        .ok (nodeOf w :: items, ns', rest') ∧
      Node.flowItems (fuel + 2) false ns (.comma :: .scalar .plain w :: rest) =
        .ok (nodeOf w :: items, ns', rest') := by
  constructor
  · rw [Node.flowItems]
    · dsimp only [bind, Except.bind, pure, Except.pure]
      rw [parse_scalar]
      dsimp only
      rw [h]
    · nofun
  · rw [Node.flowItems]
    dsimp only [bind, Except.bind, pure, Except.pure]
    rw [parse_scalar]
    dsimp only
    rw [h]

theorem flowItems_more (words : List (List Char)) (hfuel : words.length + 1 ≤ fuel) :
    Node.flowItems fuel false ns
      (words.flatMap (fun w ↦ [.comma, .scalar .plain w]) ++ .flowSequenceEnd :: rest) =
        .ok (words.map nodeOf, ns, rest) := by
  induction words generalizing fuel with
  | nil =>
    obtain ⟨fuel, rfl⟩ := Nat.exists_eq_add_of_le' hfuel
    exact flowItems_end false
  | cons w words ih =>
    obtain ⟨fuel, rfl⟩ := Nat.exists_eq_add_of_le' (Nat.le_trans (Nat.le_add_left 2 _) hfuel)
    exact (flowItems_scalar w (ih (by simpa using hfuel))).2

theorem intersperse_cons {α β : Type} (f : α → β) (sep : β) (a : α) (as : List α) :
    ((a :: as).map f).intersperse sep = f a :: as.flatMap fun a ↦ [sep, f a] := by
  induction as generalizing a with
  | nil => rfl
  | cons b as ih =>
    rw [List.map_cons, List.map_cons, List.intersperse_cons_cons, ← List.map_cons, ih]
    rfl

theorem flowItems_words (words : List (List Char)) (hfuel : words.length + 1 ≤ fuel) :
    Node.flowItems fuel true ns
      ((words.map (Token.scalar .plain)).intersperse .comma ++ .flowSequenceEnd :: rest) =
        .ok (words.map nodeOf, ns, rest) := by
  cases words with
  | nil =>
    obtain ⟨fuel, rfl⟩ := Nat.exists_eq_add_of_le' hfuel
    exact flowItems_end true
  | cons w words =>
    obtain ⟨fuel, rfl⟩ := Nat.exists_eq_add_of_le' (Nat.le_trans (Nat.le_add_left 2 _) hfuel)
    rw [intersperse_cons]
    exact (flowItems_scalar w (flowItems_more words (by simpa using hfuel))).1

/-- One entry of a block, when its value and those after it can be read. -/
theorem blockEntries_entry (key : List Char) {ts ts' : List Token} {v : Node}
    {entries : List (Node × Node)} (hpart : Node.endsBlockPart ts = false)
    (hvalue : Node.parse (fuel + 1) true true ns ts = .ok (v, ns, ts'))
    (hrest : Node.blockEntries (fuel + 2) ns ts' = .ok (entries, ns, rest)) :
    Node.blockEntries (fuel + 3) ns (.key :: .scalar .plain key :: .value :: ts) =
      .ok ((nodeOf key, v) :: entries, ns, rest) := by
  have hkey : Node.endsBlockPart (.scalar .plain key :: .value :: ts) = false := rfl
  have hval : Node.blockValue (fuel + 2) ns (.value :: ts) = .ok (v, ns, ts') := by
    rw [Node.blockValue, hpart]
    exact hvalue
  rw [Node.blockEntries, hkey, if_neg Bool.false_ne_true, parse_scalar]
  dsimp only [bind, Except.bind, pure, Except.pure]
  rw [hval]
  dsimp only
  rw [hrest]

theorem parse_list (words : List (List Char)) (hfuel : words.length + 1 ≤ fuel) :
    Node.parse (fuel + 1) true true ns ((Inline.list words).tokens ++ rest) =
      .ok (.sequence {} (words.map nodeOf), ns, rest) := by
  rw [Inline.tokens, List.cons_append, List.cons_append, List.append_assoc, Node.parse]
  · dsimp only [bind, Except.bind, pure, Except.pure, Node.marks]
    rw [List.singleton_append, flowItems_words words hfuel]
  · intro _ _ h
    cases h

theorem parse_block {inner : Layout} {ts : List Token}
    (h : Node.blockEntries fuel ns ts = .ok (inner.entries, ns, rest)) (indentless : Bool) :
    Node.parse (fuel + 1) true indentless ns (.blockMapping :: ts) =
      .ok (.mapping {} inner.entries, ns, rest) := by
  rw [Node.parse]
  · dsimp only [bind, Except.bind, pure, Except.pure, Node.marks]
    rw [if_pos rfl, h]
  · nofun

theorem length_tokens_list (words : List (List Char)) :
    words.length + 2 ≤ (Inline.list words).tokens.length := by
  cases words with
  | nil => exact Nat.le_refl 2
  | cons w words =>
    rw [Inline.tokens, intersperse_cons]
    simp
    omega

theorem blockEntries_layout (l : Layout) (hfuel : l.tokens.length + 1 ≤ fuel) :
    Node.blockEntries fuel ns (l.tokens ++ .blockEnd :: rest) = .ok (l.entries, ns, rest) := by
  induction l generalizing fuel rest with
  | done =>
    obtain ⟨fuel, rfl⟩ := Nat.exists_eq_add_of_le' hfuel
    simp [Node.blockEntries, tokens, entries]
  | word key w more ih =>
    obtain ⟨fuel, rfl⟩ := Nat.exists_eq_add_of_le' (Nat.le_trans (Nat.le_add_left 3 _) hfuel)
    simp only [tokens, List.length_append, List.length_cons] at hfuel
    exact blockEntries_entry key rfl (parse_scalar w true true) (ih (by omega))
  | list key words more ih =>
    have hlist := length_tokens_list words
    simp only [tokens, List.length_append, List.length_cons] at hfuel
    obtain ⟨fuel, rfl⟩ := Nat.exists_eq_add_of_le' (show 3 ≤ fuel by omega)
    rw [tokens, List.append_assoc, List.append_assoc]
    exact blockEntries_entry key rfl (parse_list words (by omega)) (ih (by omega))
  | block key inner more ihInner ih =>
    obtain ⟨fuel, rfl⟩ := Nat.exists_eq_add_of_le' (Nat.le_trans (Nat.le_add_left 3 _) hfuel)
    simp only [tokens, List.length_append, List.length_cons] at hfuel
    rw [tokens, List.append_assoc, List.append_assoc]
    exact blockEntries_entry key rfl (parse_block (ihInner (by omega)) true) (ih (by omega))

theorem ofTokens?_layout (l : Layout) :
    Node.ofTokens? (.blockMapping :: (l.tokens ++ [.blockEnd])) =
      .ok (some (.mapping {} l.entries)) := by
  have hlength : 4 * (Token.blockMapping :: (l.tokens ++ [.blockEnd])).length + 4 =
      4 * l.tokens.length + 11 + 1 := by
    simp
    omega
  have hparse (ns : Node.Names) :
      Node.parse (4 * l.tokens.length + 11 + 1) true false ns
        (.blockMapping :: (l.tokens ++ [.blockEnd])) = .ok (.mapping {} l.entries, ns, []) :=
    parse_block (blockEntries_layout l (by omega)) false
  rw [Node.ofTokens?, hlength]
  simp only [Node.directives, bind, Except.bind, hparse]
  rfl

/-- What is written as a mapping is read as that mapping, whatever its words are. -/
theorem ofText?_text {l : Layout} (hl : l.isPlain = true) (hdone : l.isDone = false) :
    Document.ofText? l.text = .ok (Document.ofRoot (.mapping {} l.entries)) := by
  rw [Document.ofText?, tokens?_text hl, tokensOfLines_lines hl hdone]
  dsimp only [bind, Except.bind]
  rw [List.cons_append, ofTokens?_layout]
  rfl

end Parsing

section Values

def meaning (w : List Char) : Value :=
  match Scalar.ofPlain w with
  | .ok s => .ofScalar s
  | .error _ => .null

def isRead (w : List Char) : Bool := (Scalar.ofPlain w).isOk

def keys : Layout → List (List Char)
  | done => []
  | word key _ rest | list key _ rest | block key _ rest => key :: rest.keys

/-- No word is refused, and no key of a mapping comes twice. -/
def isSound : Layout → Bool
  | done => true
  | word key w rest => isRead key && isRead w && isNew key rest.keys && rest.isSound
  | list key words rest =>
    isRead key && words.all isRead && isNew key rest.keys && rest.isSound
  | block key inner rest => isRead key && inner.isSound && isNew key rest.keys && rest.isSound
where
  isNew (key : List Char) (keys : List (List Char)) : Bool :=
    keys.all fun k ↦ !(meaning key).same (meaning k)

def height : Layout → Nat
  | done => 0
  | word _ _ rest => rest.height
  | list _ _ rest => max 1 rest.height
  | block _ inner rest => max (inner.height + 1) rest.height

def values : Layout → List (Value × Value)
  | done => []
  | word key w rest => (meaning key, meaning w) :: rest.values
  | list key words rest => (meaning key, .list (words.map meaning)) :: rest.values
  | block key inner rest => (meaning key, .mapping inner.values) :: rest.values

variable {doc : Document} {depth : Nat}

theorem value_nodeOf {w : List Char} (hw : isRead w = true) :
    doc.value depth (nodeOf w) = pure (meaning w) := by
  unfold isRead at hw
  unfold meaning
  cases hs : Scalar.ofPlain w with
  | error e =>
    rw [hs] at hw
    cases hw
  | ok s =>
    rw [Document.value]
    simp [Document.follow, nodeOf, Document.scalar, Document.withTag, Document.ownTag?, hs]
    rfl

theorem value_words {words : List (List Char)} (hwords : words.all isRead = true) :
    doc.value (depth + 1) (.sequence {} (words.map nodeOf)) = pure (.list (words.map meaning)) := by
  have hitems : (words.map nodeOf).mapM (fun item ↦ doc.value depth item) =
      pure (words.map meaning) := by
    induction words with
    | nil => rfl
    | cons w words ih =>
      simp only [List.all_cons, Bool.and_eq_true] at hwords
      rw [List.map_cons, List.mapM_cons, value_nodeOf hwords.1, ih hwords.2]
      rfl
  rw [Document.value]
  simp [Document.follow, hitems, Document.withTag, Document.ownTag?]

theorem addEntry_new {entries : List (Value × Value)} {k v : Value}
    (hnew : ∀ e ∈ entries, e.1.same k = false) :
    Document.addEntry entries k v = .ok (entries ++ [(k, v)]) := by
  rw [Document.addEntry, List.any_eq_false.2 (by simpa using hnew)]
  rfl

theorem foldlM_entry {key : List Char} {n : Node} {v : Value} {more : List (Node × Node)}
    {acc : List (Value × Value)} (hkey : isRead key = true) (hv : doc.value depth n = pure v)
    (hnew : ∀ e ∈ acc, e.1.same (meaning key) = false) :
    ((nodeOf key, n) :: more).foldlM (fun acc (k, v) ↦ do
        Document.addEntry acc (← doc.value depth k) (← doc.value depth v)) acc =
      more.foldlM (fun acc (k, v) ↦ do
        Document.addEntry acc (← doc.value depth k) (← doc.value depth v))
          (acc ++ [(meaning key, v)]) := by
  rw [List.foldlM_cons]
  dsimp only
  rw [value_nodeOf hkey, hv, pure_bind, pure_bind, addEntry_new hnew]
  rfl

theorem value_mapping {entries : List (Node × Node)} {fields : List (Value × Value)}
    (h : entries.foldlM (fun acc (k, v) ↦ do
        Document.addEntry acc (← doc.value depth k) (← doc.value depth v)) [] = pure fields) :
    doc.value (depth + 1) (.mapping {} entries) = pure (.mapping fields) := by
  rw [Document.value]
  dsimp only [Document.follow]
  rw [pure_bind]
  dsimp only
  rw [h]
  rfl

theorem forall_append_new {key : List Char} {v : Value} {rest : List (List Char)}
    {acc : List (Value × Value)}
    (hacc : ∀ k ∈ key :: rest, ∀ e ∈ acc, e.1.same (meaning k) = false)
    (hnew : isSound.isNew key rest = true) :
    ∀ k ∈ rest, ∀ e ∈ acc ++ [(meaning key, v)], e.1.same (meaning k) = false := by
  intro k hk e he
  rcases List.mem_append.1 he with he | he
  · exact hacc k (.tail _ hk) e he
  · rw [List.mem_singleton] at he
    subst he
    simpa using List.all_eq_true.1 hnew k hk

theorem foldlM_entries (l : Layout) (hl : l.isSound = true) (hdepth : l.height ≤ depth)
    {acc : List (Value × Value)} (hacc : ∀ k ∈ l.keys, ∀ e ∈ acc, e.1.same (meaning k) = false) :
    l.entries.foldlM (fun acc (k, v) ↦ do
        Document.addEntry acc (← doc.value depth k) (← doc.value depth v)) acc =
      pure (acc ++ l.values) := by
  induction l generalizing depth acc with
  | done => simp [entries, values]
  | word key w rest ih =>
    simp only [isSound, Bool.and_eq_true] at hl
    obtain ⟨⟨⟨hkey, hw⟩, hnew⟩, hrest⟩ := hl
    rw [entries, foldlM_entry hkey (value_nodeOf hw) (hacc key (.head _)),
      ih hrest hdepth (forall_append_new hacc hnew), List.append_assoc]
    rfl
  | list key words rest ih =>
    simp only [isSound, Bool.and_eq_true] at hl
    obtain ⟨⟨⟨hkey, hwords⟩, hnew⟩, hrest⟩ := hl
    obtain ⟨hone, hdepth⟩ := Nat.max_le.1 hdepth
    obtain ⟨depth, rfl⟩ := Nat.exists_eq_add_of_le' hone
    rw [entries, foldlM_entry hkey (value_words hwords) (hacc key (.head _)),
      ih hrest hdepth (forall_append_new hacc hnew), List.append_assoc]
    rfl
  | block key inner rest ihInner ih =>
    simp only [isSound, Bool.and_eq_true] at hl
    obtain ⟨⟨⟨hkey, hinner⟩, hnew⟩, hrest⟩ := hl
    obtain ⟨hdeeper, hdepth⟩ := Nat.max_le.1 hdepth
    obtain ⟨depth, rfl⟩ := Nat.exists_eq_add_of_le' (Nat.le_trans (Nat.le_add_left 1 _) hdeeper)
    have hvalue := value_mapping (ihInner hinner (Nat.le_of_succ_le_succ hdeeper) nofun)
    rw [entries, foldlM_entry hkey hvalue (hacc key (.head _)),
      ih hrest hdepth (forall_append_new hacc hnew), List.append_assoc]
    rfl

/-- What is written as a mapping is read as the mapping of what its words mean. -/
theorem ofBytes?_text {l : Layout} (hplain : l.isPlain = true) (hdone : l.isDone = false)
    (hsound : l.isSound = true) (hheight : l.height < Document.maxDepth) :
    Value.ofBytes? (String.ofList l.text).toUTF8 = .ok (.mapping l.values) := by
  obtain ⟨depth, hdepth⟩ := Nat.exists_eq_add_of_lt hheight
  have hvalue (doc : Document) : doc.value Document.maxDepth (.mapping {} l.entries) =
      pure (.mapping l.values) := by
    rw [hdepth]
    exact value_mapping (foldlM_entries l hsound (Nat.le_add_right _ _) nofun)
  rw [Value.ofBytes?, Document.ofBytes?_ofList, ofText?_text hplain hdone]
  dsimp only [bind, Except.bind, Document.ofRoot]
  rw [hvalue]
  rfl

end Values

end Layout

end Multicloud.Yaml
