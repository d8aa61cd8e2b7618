import Multicloud.Proofs.Disk.Alike
import Multicloud.Proofs.Disk.Course
import Multicloud.Proofs.Lock.Log

namespace Multicloud

namespace LockLog

open Script

variable {log : LockLog} {root root' : Tree} {e : LockEntry} {now : Instant}
  {workload graphHash : String} {b : Binding} {targets : List Provider}
  {answer : Except LockError LockEntry}

theorem only_history (log : LockLog) : Only DiskOp.IsLook log.history := by
  refine Only.bind (only_readText log.path) fun answer ↦ ?_
  split <;> exact only_pure _

theorem only_previous (log : LockLog) (workload : String) :
    Only DiskOp.IsLook (log.previous workload) := by
  refine Only.bind (Only.bind log.only_history fun _ ↦ only_pure _) fun answer ↦ ?_
  cases answer <;> exact only_pure _

theorem onlyOr_record {way places : List (List String)} (h : log.path.Within way places)
    (e : LockEntry) : OnlyOr (DiskOp.Within way places) (log.record e) :=
  OnlyOr.bind (onlyOr_orElse (only_step (DiskOp.within_of_path rfl rfl h))) fun _ ↦ onlyOr_pure _

theorem trail_above? {dir : Path} (h : log.above? = some dir) : dir.trail ⊆ log.path.trail :=
  Path.trail_parent? (Option.filter_eq_some_iff.1 h).1

theorem only_commit (log : LockLog) (now : Instant) (workload graphHash : String) (b : Binding)
    (targets : List Provider) : Only (DiskOp.Within log.path.trail [log.path.names])
      (log.commit now workload graphHash b targets) := by
  have hlog : log.path.Within log.path.trail [log.path.names] :=
    Path.within_of_mem (List.Subset.refl _) (List.mem_singleton.2 rfl)
  rw [commit_eq]
  split
  · exact onlyOr_record hlog _
  · next dir habove =>
    refine OnlyOr.bind (onlyOr_orElse (only_step (.makeDirs fun m hm ↦ ?_)))
      fun _ ↦ onlyOr_record hlog _
    exact .inl (trail_above? habove hm)

theorem mem_trail_cases {m : List String} (hm : m ∈ log.path.trail) :
    m = log.path.names ∨ m ∈ ((log.above?).map Path.trail).getD [[]] := by
  have habove : log.above? = log.path.parent?.filter fun dir ↦ !dir.text.isEmpty := rfl
  cases hparent : log.path.parent? with
  | none =>
    rw [Path.trail, Path.steps_of_parent?_eq_none hparent] at hm
    rw [habove, hparent]
    exact .inr hm
  | some dir =>
    rw [habove, hparent, Option.filter_some]
    refine (Path.mem_trail_of_steps (Path.steps_parent? hparent) hm).symm.imp_right fun hmem ↦ ?_
    split
    · exact hmem
    · next hempty =>
      obtain rfl : dir = ⟨""⟩ := by
        cases dir
        simpa using hempty
      exact hmem

theorem paced_commit {firm : List (List String)} (hroot : [] ∈ firm) (log : LockLog)
    (now : Instant) (workload graphHash : String) (b : Binding) (targets : List Provider) :
    Paced log.path.trail [log.path.names] firm (log.commit now workload graphHash b targets) := by
  have hrecord {firm : List (List String)} (e : LockEntry)
      (hfirm : ((log.above?).map Path.trail).getD [[]] ⊆ firm) :
      PacedOr log.path.trail [log.path.names] firm (log.record e) := by
    have hwithin : log.path.Within firm [log.path.names] := by
      refine ⟨⟨_, .head _, List.prefix_rfl⟩, fun m hm ↦ ?_⟩
      rcases mem_trail_cases hm with rfl | hmem
      · exact .inr ⟨_, .head _, List.prefix_rfl⟩
      · exact .inl (hfirm hmem)
    exact (onlyOr_record hwithin e).pacedOr (List.Subset.refl _)
  rw [commit_eq]
  split
  · next habove =>
    refine hrecord _ ?_
    rw [habove]
    exact List.cons_subset.2 ⟨hroot, List.nil_subset _⟩
  · next dir habove =>
    refine pacedOr_makeDirs (fun m hm ↦ .inl (trail_above? habove hm)) (hrecord _ ?_)
    rw [habove]
    exact List.subset_append_left _ _

/-- A line is added at the end of the file of the log. -/
def Adds (log : LockLog) (root : Tree) (line : String) (root' : Tree) : Prop :=
  root'.fileAt? log.path.names =
    some ((root.fileAt? log.path.names).getD .empty ++ (line ++ "\n").toUTF8)

theorem fileAt?_of_change {p : Path} {f : Option ByteArray → ByteArray}
    (h : DiskOp.change root p f = .ok root') :
    root'.fileAt? p.names = some (f (root.fileAt? p.names)) := by
  obtain ⟨hplace, -, ⟨old, hold, rfl⟩ | ⟨hnone, rfl⟩⟩ := DiskOp.change_eq_ok_iff.1 h
  · rw [Tree.fileAt?_eq_some.2 hold]
    exact Tree.fileAt?_eq_some.2 (Tree.get?_set_of_place hplace _)
  · have hold : root.fileAt? p.names = none := by rw [Tree.fileAt?, hnone]
    rw [hold]
    exact Tree.fileAt?_eq_some.2 (Tree.get?_set_of_place hplace _)

/-- The file of the log stays as it is, or has one more line. -/
theorem leads_record (h : Leads (log.record e).run root answer root') :
    root'.fileAt? log.path.names = root.fileAt? log.path.names ∨
      log.Adds root e.toJson.line root' := by
  have hstep {result : Except LockError Unit} {root₁ : Tree} (h : Leads (orElse
      (append log.path (e.toJson.line ++ "\n")) (LockError.io log.path)).run root result root₁) :
      root₁.fileAt? log.path.names = root.fileAt? log.path.names ∨
        log.Adds root e.toJson.line root₁ := by
    obtain ⟨answer, happend, -⟩ := leads_mapError.1 h
    rcases whole_of_leads happend with rfl | rfl
    · exact .inl rfl
    · rw [DiskOp.run]
      cases hc : DiskOp.change root log.path
          fun old ↦ old.getD .empty ++ (e.toJson.line ++ "\n").toUTF8 with
      | error cause => exact .inl rfl
      | ok new =>
        have hnew := fileAt?_of_change hc
        exact .inr hnew
  rcases leads_bindOr.1 h with ⟨_, root₁, happend, hdone⟩ | ⟨cause, happend, -⟩
  · obtain ⟨-, rfl⟩ := leads_pureOr.1 hdone
    exact hstep happend
  · exact hstep happend

theorem leads_commit
    (h : Leads (log.commit now workload graphHash b targets) root answer root') :
    root'.fileAt? log.path.names = root.fileAt? log.path.names ∨
      log.Adds root (entry now workload graphHash b targets).toJson.line root' := by
  rw [commit_eq] at h
  split at h
  · exact leads_record h
  · next dir _ =>
    have hdirs {result : Except LockError Unit} {root₁ : Tree}
        (h : Leads (orElse (makeDirs dir) (LockError.io dir)).run root result root₁) :
        root₁.fileAt? log.path.names = root.fileAt? log.path.names := by
      obtain ⟨answer, hmake, -⟩ := leads_mapError.1 h
      exact DiskOp.fileAt?_eq_of_yields (by simp [DiskOp.edits]) (yields_of_leads hmake)
    rcases leads_bindOr.1 h with ⟨_, root₁, hmake, hrecord⟩ | ⟨cause, hmake, -⟩
    · have hsame := hdirs hmake
      have hrecord := leads_record hrecord
      rwa [Adds, hsame] at hrecord
    · exact .inl (hdirs hmake)

end LockLog

end Multicloud
