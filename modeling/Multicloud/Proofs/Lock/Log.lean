import Multicloud.Proofs.Disk.Text
import Multicloud.Proofs.Lock.Latest
import Multicloud.Proofs.Lock.Lines

namespace Multicloud

namespace LockLog

variable {log : LockLog} {root root' : Tree} {es : List LockEntry} {e : LockEntry}

section History

theorem run_history_eq (log : LockLog) (root : Tree) :
    log.history.run root =
      (match Script.textAt root log.path with
        | .error .notFound => .ok []
        | .error cause => .error (.io log.path cause)
        | .ok text => (entries text).mapError (.corrupt log.path), root) := by
  rw [history, Script.run_bind, Script.run_readText]
  cases Script.textAt root log.path with
  | ok text => rfl
  | error cause => cases cause <;> rfl

theorem run_history_of_textAt {text : String} (h : Script.textAt root log.path = .ok text)
    (hes : entries text = .ok es) : log.history.run root = (.ok es, root) := by
  rw [run_history_eq, h]
  dsimp only
  rw [hes]
  rfl

theorem run_of_history (h : log.history.run root = (.ok es, root)) :
    log.last.run root = (.ok (latest es), root) ∧ ∀ w,
      (log.lastFor w).run root = (.ok (latest (es.filter fun e ↦ e.workload == w)), root) ∧
        (log.previous w).run root = (latest (es.filter fun e ↦ e.workload == w), root) := by
  have hlastFor (w : String) : (log.lastFor w).run root =
      (.ok (latest (es.filter fun e ↦ e.workload == w)), root) := by
    rw [lastFor, Script.run_bind, h]
    rfl
  refine ⟨?_, fun w ↦ ⟨hlastFor w, ?_⟩⟩
  · rw [last, Script.run_bind, h]
    rfl
  · rw [previous, Script.run_bind, hlastFor w]
    rfl

end History

/-- The entries of the file of a log, all of its lines at their end. There may be no file yet. -/
def Holds (log : LockLog) (root : Tree) (es : List LockEntry) : Prop :=
  ∃ text, Ended text ∧ entries text = .ok es ∧
    (root.get? log.path.names = some (.file text.toUTF8) ∨
      text = "" ∧ root.get? log.path.names = none)

section Commit

variable {now : Instant} {workload graphHash : String} {b : Binding} {targets : List Provider}

def record (log : LockLog) (e : LockEntry) : Script.OrFail LockError LockEntry := do
  Script.orElse (Script.append log.path (e.toJson.line ++ "\n")) (LockError.io log.path)
  return e

def above? (log : LockLog) : Option Path := log.path.parent?.filter fun dir ↦ !dir.text.isEmpty

theorem commit_eq (log : LockLog) (now : Instant) (workload graphHash : String) (b : Binding)
    (targets : List Provider) :
    log.commit now workload graphHash b targets =
      ExceptT.run (match log.above? with
        | none => log.record (entry now workload graphHash b targets)
        | some dir => do
          Script.orElse (Script.makeDirs dir) (LockError.io dir)
          log.record (entry now workload graphHash b targets)) := by
  unfold commit above?
  cases log.path.parent? with
  | none => rfl
  | some dir =>
    rw [Option.filter_some]
    cases hd : dir.text.isEmpty with
    | true =>
      simp only [hd]
      rfl
    | false =>
      simp only [hd]
      rfl

theorem attempt_record (log : LockLog) (e : LockEntry) (root : Tree) :
    Script.attempt (log.record e) root =
      match DiskOp.change root log.path
        (fun old ↦ old.getD .empty ++ (e.toJson.line ++ "\n").toUTF8) with
      | .ok root' => (.ok e, root')
      | .error cause => (.error (.io log.path cause), root) := by
  rw [record, Script.attempt_bind, Script.attempt_append]
  cases DiskOp.change root log.path
    (fun old ↦ old.getD .empty ++ (e.toJson.line ++ "\n").toUTF8) <;> rfl

/-- A commit makes directories and adds its line at the end of the file. -/
theorem commit_eq_ok
    (h : (log.commit now workload graphHash b targets).run root = (.ok e, root')) :
    e = entry now workload graphHash b targets ∧
      ∃ root₁, (∀ names, root.Keeps root₁ names) ∧ root₁.FilesWithin root ∧
        DiskOp.change root₁ log.path
          (fun old ↦ old.getD .empty ++ (e.toJson.line ++ "\n").toUTF8) = .ok root' := by
  have hrecord {root₁ : Tree}
      (hr : Script.attempt (log.record (entry now workload graphHash b targets)) root₁ =
        (.ok e, root')) :
      e = entry now workload graphHash b targets ∧ DiskOp.change root₁ log.path
        (fun old ↦ old.getD .empty ++ (e.toJson.line ++ "\n").toUTF8) = .ok root' := by
    rw [attempt_record] at hr
    split at hr
    · next hc =>
      cases hr
      exact ⟨rfl, hc⟩
    · cases hr
  rw [commit_eq, ← Script.attempt] at h
  split at h
  · obtain ⟨he, hc⟩ := hrecord h
    exact ⟨he, root, .refl root, fun _ _ hf ↦ hf, hc⟩
  · next dir _ =>
    rw [Script.attempt_bind, Script.attempt_makeDirs] at h
    cases hm : (DiskOp.makeAll root dir).1 with
    | error err =>
      rw [hm] at h
      cases h
    | ok u =>
      rw [hm] at h
      obtain ⟨he, hc⟩ := hrecord h
      exact ⟨he, _, DiskOp.keeps_makeAll root dir, DiskOp.filesWithin_makeAll root dir, hc⟩

theorem commit_of_file (habove : log.above? = none)
    (hplace : root.place log.path = .ok log.path.names) (hask : log.path.asksDirectory = false)
    {old : ByteArray} (hfile : root.get? log.path.names = some (.file old)) :
    ∃ e root', (log.commit now workload graphHash b targets).run root = (.ok e, root') := by
  obtain ⟨root', hchange⟩ : ∃ root', DiskOp.change root log.path
      (fun old ↦ old.getD .empty ++
        ((entry now workload graphHash b targets).toJson.line ++ "\n").toUTF8) = .ok root' :=
    ⟨_, DiskOp.change_eq_ok_iff.2 ⟨hplace, hask, .inl ⟨old, hfile, rfl⟩⟩⟩
  refine ⟨entry now workload graphHash b targets, root', ?_⟩
  rw [commit_eq, habove, ← Script.attempt]
  dsimp only
  rw [attempt_record, hchange]

theorem keeps_commit (h : (log.commit now workload graphHash b targets).run root = (.ok e, root'))
    {names : List String} (hne : log.path.names ≠ names) : root.Keeps root' names := by
  obtain ⟨-, root₁, hkeeps, -, hc⟩ := commit_eq_ok h
  exact (hkeeps names).trans (DiskOp.keeps_change hc hne)

theorem textAt_commit {text : String} (htext : root.HasText log.path text)
    (h : (log.commit now workload graphHash b targets).run root = (.ok e, root')) :
    Script.textAt root' log.path = .ok (text ++ (e.toJson.line ++ "\n")) := by
  obtain ⟨-, root₁, hkeeps, hwithin, hc⟩ := commit_eq_ok h
  exact (htext.of_keeps (hkeeps _) hwithin).append hc

theorem Holds.hasText (hlog : log.Holds root es) :
    ∃ text, Ended text ∧ entries text = .ok es ∧ root.HasText log.path text := by
  obtain ⟨text, hended, hes, hfile | ⟨htext, hnone⟩⟩ := hlog
  · exact ⟨text, hended, hes, .inl hfile⟩
  · exact ⟨text, hended, hes, .inr ⟨htext, by simp [hnone]⟩⟩

theorem Holds.commit (hlog : log.Holds root es)
    (h : (log.commit now workload graphHash b targets).run root = (.ok e, root')) :
    log.Holds root' (es ++ [e]) ∧ log.history.run root' = (.ok (es ++ [e]), root') := by
  obtain ⟨text, hended, hes, htext⟩ := hlog.hasText
  have hread := textAt_commit htext h
  have hentries := entries_append_line hended hes e
  exact ⟨⟨_, ended_append_line text e, hentries, .inl (Script.get?_of_textAt hread)⟩,
    run_history_of_textAt hread hentries⟩

theorem Holds.lastFor_commit (hlog : log.Holds root es)
    (h : (log.commit now workload graphHash b targets).run root = (.ok e, root')) :
    ∃ last, (log.lastFor workload).run root' = (.ok (some last), root') ∧
      (last = e ∨ last ∈ es ∧ last.workload = workload ∧
        (compare last.time e.time).isGT = true) := by
  have he : e.workload = workload := by rw [(commit_eq_ok h).1, entry]
  have hfilter : (es ++ [e]).filter (fun e ↦ e.workload == workload) =
      es.filter (fun e ↦ e.workload == workload) ++ [e] := by
    rw [List.filter_append]
    simp [he]
  obtain ⟨last, hlast, hcases⟩ := latest_concat (es.filter fun e ↦ e.workload == workload) e
  refine ⟨last, ?_, hcases.imp_right fun ⟨hmem, hgt⟩ ↦ ?_⟩
  · rw [((run_of_history (hlog.commit h).2).2 workload).1, hfilter, hlast]
  · obtain ⟨hmem, hworkload⟩ := List.mem_filter.1 hmem
    exact ⟨hmem, beq_iff_eq.1 hworkload, hgt⟩

end Commit

end LockLog

end Multicloud
