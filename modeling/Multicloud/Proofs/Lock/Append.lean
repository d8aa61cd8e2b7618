import Multicloud.Proofs.Lock.Log

namespace Multicloud.LockLog

variable {log : LockLog} {root root' : Tree} {es : List LockEntry} {e : LockEntry}

/-- The text that is seen in the log. No file is an empty text. -/
def text (log : LockLog) (root : Tree) : String :=
  (Script.textAt root log.path).toOption.getD ""

/-- A path can lead through a directory that is not there and back, to a file that is. It is not
seen until the directory is made. -/
def Hidden (log : LockLog) (root : Tree) : Prop :=
  Script.textAt root log.path = .error .notFound ∧
    ∃ bytes, root.get? log.path.names = some (.file bytes)

theorem of_history_eq_ok (hseen : ¬ log.Hidden root) (h : log.history.run root = (.ok es, root)) :
    root.HasText log.path (log.text root) ∧ entries (log.text root) = .ok es := by
  rw [run_history_eq] at h
  have h := congrArg Prod.fst h
  dsimp only at h
  rw [text]
  split at h
  · next hread =>
    cases h
    rw [hread]
    refine ⟨.inr ⟨rfl, fun bytes hfile ↦ hseen ⟨hread, bytes, hfile⟩⟩, rfl⟩
  · cases h
  · next text hread =>
    rw [hread]
    refine ⟨.inl (Script.get?_of_textAt hread), ?_⟩
    change entries text = .ok es
    cases hes : entries text with
    | error n =>
      rw [hes] at h
      cases h
    | ok es' =>
      rw [hes] at h
      cases h
      rfl

section Commit

variable {now : Instant} {workload graphHash : String} {b : Binding} {targets : List Provider}

/-- A commit adds its entry to a log that can be read, as long as no line has been begun there. The
line that has been begun is lost with the entry. -/
theorem history_commit (hseen : ¬ log.Hidden root) (hes : log.history.run root = (.ok es, root))
    (h : (log.commit now workload graphHash b targets).run root = (.ok e, root')) :
    log.history.run root' =
      (if Extensible (log.text root) then .ok (es ++ [e])
        else .error (.corrupt log.path (Name.splitAt '\n' (log.text root).toList).length),
        root') := by
  obtain ⟨htext, hentries⟩ := of_history_eq_ok hseen hes
  rw [run_history_eq, textAt_commit htext h]
  dsimp only
  rw [entries_append hentries e]
  split <;> rfl

end Commit

section Begun

def standard : LockLog := ⟨standardPath⟩

def noon : Instant := ⟨1704110400, 0, by decide, by decide⟩

def first : LockEntry := entry noon "default/web" "blake3:one" ∅ []

def begun : Tree := .dir [("nebulaforge.lock", .file first.toJson.line.toUTF8)]

theorem entries_line (e : LockEntry) : entries e.toJson.line = .ok [e] := by
  have hline : e.toJson.line.toList = e.toJson.compact := String.toList_ofList
  rw [entries, hline, Text.splitAt_of_not_mem e.newline_not_mem_compact,
    entriesFrom_line e.trim_compact_ne_nil, e.ofLine?_compact]
  rfl

theorem not_extensible_line (e : LockEntry) : ¬ Extensible e.toJson.line := by
  have hline : e.toJson.line.toList = e.toJson.compact := String.toList_ofList
  rw [Extensible, hline, Text.splitAt_of_not_mem e.newline_not_mem_compact]
  simpa using e.skip_compact_ne_nil

theorem textAt_begun : Script.textAt begun standard.path = .ok first.toJson.line :=
  Script.textAt_of_readFile (DiskOp.readFile_eq_ok_iff.2 ⟨rfl, rfl, rfl⟩)

theorem history_begun : standard.history.run begun = (.ok [first], begun) :=
  run_history_of_textAt textAt_begun (entries_line first)

theorem commit_begun (now : Instant) (workload graphHash : String) (b : Binding)
    (targets : List Provider) : ∃ e root',
      (standard.commit now workload graphHash b targets).run begun = (.ok e, root') :=
  commit_of_file rfl rfl rfl rfl

theorem history_commit_begun : ∃ e root',
    standard.history.run begun = (.ok [first], begun) ∧
      (standard.commit noon "default/api" "blake3:two" ∅ []).run begun = (.ok e, root') ∧
      standard.history.run root' = (.error (.corrupt standardPath 1), root') := by
  obtain ⟨e, root', h⟩ := commit_begun noon "default/api" "blake3:two" ∅ []
  refine ⟨e, root', history_begun, h, ?_⟩
  have hseen : ¬ standard.Hidden begun := by
    intro hhidden
    rw [Hidden, textAt_begun] at hhidden
    cases hhidden.1
  rw [history_commit hseen history_begun h, text, textAt_begun]
  have hline : first.toJson.line.toList = first.toJson.compact := String.toList_ofList
  rw [Except.toOption, Option.getD_some, if_neg (not_extensible_line first), hline,
    Text.splitAt_of_not_mem first.newline_not_mem_compact]
  rfl

/-- An entry cannot come after a line that has not come to its end. -/
theorem not_history_commit : ¬ ∀ (log : LockLog) (root root' : Tree) (es : List LockEntry)
    (e : LockEntry) (now : Instant) (workload graphHash : String) (b : Binding)
    (targets : List Provider), log.history.run root = (.ok es, root) →
      (log.commit now workload graphHash b targets).run root = (.ok e, root') →
        log.history.run root' = (.ok (es ++ [e]), root') := by
  intro hall
  obtain ⟨e, root', h⟩ := commit_begun noon "default/api" "blake3:two" ∅ []
  have hnext := hall standard begun root' [first] e _ _ _ _ _ history_begun h
  have hread := textAt_commit (.inl (Script.get?_of_textAt textAt_begun)) h
  rw [run_history_eq, hread] at hnext
  dsimp only at hnext
  rw [entries_append (entries_line first) e, if_neg (not_extensible_line first)] at hnext
  cases hnext

end Begun

end Multicloud.LockLog
