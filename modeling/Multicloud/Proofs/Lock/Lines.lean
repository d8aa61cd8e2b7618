import Mathlib.Data.List.TakeWhile
import Multicloud.Lock.Log
import Multicloud.Proofs.Fallible
import Multicloud.Proofs.Json.Append
import Multicloud.Proofs.Lock.Entry
import Multicloud.Proofs.Text.Separated

namespace Multicloud

namespace Text

variable {s : List Char}

theorem trimStart_eq_nil_iff : trimStart s = [] ↔ ∀ c ∈ s, isBlank c = true :=
  List.dropWhile_eq_nil_iff

theorem trim_eq_nil_iff : trim s = [] ↔ ∀ c ∈ s, isBlank c = true := by
  rw [trim, trimEnd, List.reverse_eq_nil_iff, trimStart_eq_nil_iff]
  simp only [List.mem_reverse]
  constructor
  · intro h
    by_contra hne
    rw [← trimStart_eq_nil_iff] at hne
    have hhead : isBlank ((trimStart s).head hne) = false := List.head_dropWhile_not isBlank hne
    rw [h _ (List.head_mem hne)] at hhead
    cases hhead
  · intro h c hc
    exact h c ((List.dropWhile_sublist _).subset hc)

theorem trim_append_ne_nil {t : List Char} (ht : trim t ≠ []) (s : List Char) :
    trim (s ++ t) ≠ [] := by
  intro h
  apply ht
  rw [trim_eq_nil_iff] at h ⊢
  intro c hc
  exact h c (List.mem_append_right s hc)

end Text

theorem Json.isBlank_of_skip {s : List Char} (h : skip s = []) : ∀ c ∈ s, Text.isBlank c = true := by
  intro c hc
  have hblank := List.dropWhile_eq_nil_iff.1 h c hc
  simp only [isBlank, Bool.or_eq_true, decide_eq_true_eq] at hblank
  rcases hblank with ((rfl | rfl) | rfl) | rfl <;> decide

namespace LockEntry

variable {e : LockEntry} {s : List Char}

theorem newline_not_mem_compact (e : LockEntry) : '\n' ∉ e.toJson.compact := by
  intro h
  have hprinted := List.all_eq_true.1 e.tidy_toJson.printed '\n' h
  exact absurd hprinted (by decide)

theorem head_compact (e : LockEntry) : ∃ t, e.toJson.compact = '\x7b' :: t := ⟨_, rfl⟩

theorem skip_compact_ne_nil (e : LockEntry) : Json.skip e.toJson.compact ≠ [] := by
  obtain ⟨t, ht⟩ := e.head_compact
  rw [ht]
  exact List.cons_ne_nil _ t

theorem trim_compact_ne_nil (e : LockEntry) : Text.trim e.toJson.compact ≠ [] := by
  obtain ⟨t, ht⟩ := e.head_compact
  rw [Ne, Text.trim_eq_nil_iff, ht]
  intro h
  exact absurd (h _ (List.mem_cons_self)) (by decide)

theorem isClosed_of_ofJson? {v : Json.Value} (h : ofJson? v = some e) : v.IsClosed := by
  cases v with
  | number w => cases h
  | _ => trivial

theorem ofLine?_append_compact (hs : Text.trim s = [] ∨ (ofLine? s).isSome = true)
    (e : LockEntry) :
    ofLine? (s ++ e.toJson.compact) = if Json.skip s = [] then some e else none := by
  split
  · next hskip =>
    rw [ofLine?, Json.Value.ofText?_blanks_append (Json.Value.ofText?_compact e.tidy_toJson)
      (isClosed_of_ofJson? e.ofJson?_toJson) hskip, Option.bind_some, e.ofJson?_toJson]
  · next hskip =>
    rw [ofLine?, Option.bind_eq_none_iff]
    intro v hv
    rcases hs with hblank | hsome
    · obtain ⟨c, s₁, hs₁⟩ := List.exists_cons_of_ne_nil hskip
      have hmem : c ∈ s := by
        refine (List.dropWhile_sublist Json.isBlank).subset ?_
        rw [← Json.skip, hs₁]
        exact .head _
      have hc := Text.trim_eq_nil_iff.1 hblank c hmem
      have happ := Json.skip_append hskip e.toJson.compact
      rw [hs₁, List.cons_append] at happ
      rw [Json.Value.ofText?_eq_none_of_blank happ hc] at hv
      cases hv
    · obtain ⟨e', he'⟩ := Option.isSome_iff_exists.1 hsome
      obtain ⟨v', hv', he'⟩ := Option.bind_eq_some_iff.1 he'
      have hnone := Json.Value.ofText?_append_eq_none hv' (isClosed_of_ofJson? he')
        e.skip_compact_ne_nil
      rw [hnone] at hv
      cases hv

end LockEntry

namespace LockLog

variable {n k : Nat} {lines : List (List Char)} {line : List Char} {es es' : List LockEntry}
  {e : LockEntry} {text : String}

theorem entriesFrom_append (n : Nat) (a b : List (List Char)) :
    entriesFrom n (a ++ b) = do
      let es ← entriesFrom n a
      let es' ← entriesFrom (n + a.length) b
      return es ++ es' := by
  induction a generalizing n with
  | nil =>
    rw [List.nil_append, entriesFrom]
    cases entriesFrom n b <;> rfl
  | cons line a ih =>
    have hlength : n + (line :: a).length = n + 1 + a.length := by
      rw [List.length_cons]
      omega
    rw [List.cons_append, entriesFrom, entriesFrom, ih (n + 1), hlength]
    split
    · rfl
    · cases LockEntry.ofLine? line with
      | none => rfl
      | some e =>
        dsimp only
        cases entriesFrom (n + 1) a with
        | error k => rfl
        | ok es => cases entriesFrom (n + 1 + a.length) b <;> rfl

theorem entriesFrom_blank (h : Text.trim line = []) : entriesFrom n [line] = .ok [] := by
  simp [entriesFrom, h]

theorem entriesFrom_line (h : Text.trim line ≠ []) :
    entriesFrom n [line] = ((LockEntry.ofLine? line).map fun e ↦ [e]).elim (.error n) .ok := by
  rw [entriesFrom, if_neg (by simpa using h)]
  cases LockEntry.ofLine? line <;> rfl

theorem of_entriesFrom_eq_ok (h : entriesFrom n [line] = .ok es) :
    Text.trim line = [] ∧ es = [] ∨ (LockEntry.ofLine? line).isSome = true := by
  by_cases hblank : Text.trim line = []
  · rw [entriesFrom_blank hblank] at h
    exact .inl ⟨hblank, (Except.ok.inj h).symm⟩
  · rw [entriesFrom_line hblank] at h
    cases hline : LockEntry.ofLine? line with
    | none =>
      rw [hline] at h
      cases h
    | some e => exact .inr rfl

/-- Nothing but blanks after the last line feed. -/
def Extensible (text : String) : Prop :=
  ∀ line ∈ (Name.splitAt '\n' text.toList).getLast?, Json.skip line = []

instance (text : String) : Decidable (Extensible text) :=
  inferInstanceAs (Decidable (∀ line ∈ (Name.splitAt '\n' text.toList).getLast?,
    Json.skip line = []))

/-- A line goes to the end of a text. It is a line of its own only if none has been begun. -/
theorem entries_append (h : entries text = .ok es) (e : LockEntry) :
    entries (text ++ (e.toJson.line ++ "\n")) =
      if Extensible text then .ok (es ++ [e])
      else .error (Name.splitAt '\n' text.toList).length := by
  obtain ⟨init, last, hlines, happ⟩ :=
    Text.splitAt_append_of_not_mem text.toList e.newline_not_mem_compact
  have htext : (text ++ (e.toJson.line ++ "\n")).toList =
      (text.toList ++ e.toJson.compact) ++ '\n' :: [] := by
    simp [String.toList_append, Json.Value.line]
  have hsplit : Name.splitAt '\n' (text ++ (e.toJson.line ++ "\n")).toList =
      init ++ ([last ++ e.toJson.compact] ++ [[]]) := by
    rw [htext, Text.splitAt_append, happ, List.append_assoc]
    rfl
  have hextensible : Extensible text ↔ Json.skip last = [] := by
    simp [Extensible, hlines]
  rw [entries, hlines, entriesFrom_append] at h
  obtain ⟨es₁, h₁, h⟩ := bind_eq_ok.1 h
  obtain ⟨es₂, h₂, h⟩ := bind_eq_ok.1 h
  cases h
  have hlast := of_entriesFrom_eq_ok h₂
  have hline := LockEntry.ofLine?_append_compact (hlast.imp_left And.left) e
  rw [entries, hsplit, entriesFrom_append, h₁, entriesFrom_append,
    entriesFrom_line (Text.trim_append_ne_nil e.trim_compact_ne_nil last), hline,
    entriesFrom_blank (show Text.trim [] = [] from rfl)]
  by_cases hskip : Json.skip last = []
  · have hnone : es₂ = [] := by
      rw [entriesFrom_blank (Text.trim_eq_nil_iff.2 (Json.isBlank_of_skip hskip))] at h₂
      exact (Except.ok.inj h₂).symm
    rw [if_pos hskip, if_pos (hextensible.2 hskip), hnone]
    simp [bind, Except.bind, pure, Except.pure]
  · rw [if_neg hskip, if_neg (hextensible.not.2 hskip), hlines]
    simp [bind, Except.bind, Nat.add_comm]

/-- Nothing, or lines that all come to their end. -/
def Ended (text : String) : Prop := text = "" ∨ ∃ s, text = s ++ "\n"

theorem Ended.extensible {text : String} (h : Ended text) : Extensible text := by
  rcases h with rfl | ⟨s, rfl⟩
  · simp [Extensible, Name.splitAt, Json.skip]
  · have hs : (s ++ "\n").toList = s.toList ++ '\n' :: [] := String.toList_append
    rw [Extensible, hs, Text.splitAt_append]
    simp [Name.splitAt, Json.skip]

theorem ended_append_line (text : String) (e : LockEntry) :
    Ended (text ++ (e.toJson.line ++ "\n")) :=
  .inr ⟨text ++ e.toJson.line, by rw [String.append_assoc]⟩

theorem entries_append_line {text : String} (ht : Ended text) (h : entries text = .ok es)
    (e : LockEntry) : entries (text ++ (e.toJson.line ++ "\n")) = .ok (es ++ [e]) :=
  (entries_append h e).trans (if_pos ht.extensible)

end LockLog

end Multicloud
