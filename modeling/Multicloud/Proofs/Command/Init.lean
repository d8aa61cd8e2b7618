import Multicloud.Proofs.Command.Stages
import Multicloud.Proofs.Command.Template
import Multicloud.Proofs.Run.Reuse

namespace Multicloud

open Script

namespace Command

variable {now : Instant} {path p : Path} {targets : List Provider} {root root' : Tree}

theorem keeps_of_leads_makeDirs (h : Leads (makeDirs p) root (.ok ()) root')
    (names : List String) : root.Keeps root' names := by
  rcases @yields_of_leads _ _ (.makeDirs p) _ h with hrun | ⟨⟨e, he⟩, -⟩
  · have hmade : (DiskOp.makeAll root p).2 = root' := congrArg Prod.snd hrun
    exact hmade ▸ DiskOp.keeps_makeAll root p names
  · cases he

theorem leads_writeFile {text : String} (h : Leads (writeFile p text).run root (.ok ()) root') :
    ∃ mid, (∀ names, root.Keeps mid names) ∧
      DiskOp.change mid p (fun _ ↦ text.toUTF8) = .ok root' := by
  unfold writeFile at h
  split at h
  · split at h
    · obtain ⟨⟨⟩, mid, hdirs, hwrite⟩ := leads_bindOr_ok.1 h
      exact ⟨mid, keeps_of_leads_makeDirs (leads_orElse_ok.1 hdirs),
        change_of_leads_write (leads_orElse_ok.1 hwrite)⟩
    · exact ⟨root, .refl root, change_of_leads_write (leads_orElse_ok.1 h)⟩
  · exact ⟨root, .refl root, change_of_leads_write (leads_orElse_ok.1 h)⟩

theorem leads_runInit {report : Report}
    (h : Leads (runInit path targets).run root (.ok report) root') :
    ∃ mid, Leads (writeFile (path.join standardWorkload.text) (workloadText targets)).run root
        (.ok ()) mid ∧
      (root' = mid ∨ Leads (writeFile (path.join Settings.standardPath.text)
        (Report.textOf settingsTemplate)).run mid (.ok ()) root') := by
  unfold runInit at h
  obtain ⟨present, root₁, hfind, hrest⟩ := leads_bindOr_ok.1 h
  obtain rfl := root_eq_of_isPresent hfind
  cases present with
  | true =>
    obtain ⟨⟨⟩, root₂, hthrow, -⟩ := leads_bindOr_ok.1 hrest
    obtain ⟨hthrow, -⟩ := leads_pure.1 hthrow
    cases hthrow
  | false =>
    obtain ⟨⟨⟩, mid, hwrite, hrest⟩ := leads_bindOr_ok.1 hrest
    refine ⟨mid, hwrite, ?_⟩
    obtain ⟨present, root₂, hfind, hrest⟩ := leads_bindOr_ok.1 hrest
    obtain rfl := root_eq_of_isPresent hfind
    cases present with
    | true =>
      exact .inl (leads_pure.1 hrest).2
    | false =>
      obtain ⟨⟨⟩, root₃, hwrite, hrest⟩ := leads_bindOr_ok.1 hrest
      obtain ⟨-, rfl⟩ := leads_pure.1 hrest
      exact .inr hwrite

theorem readFile_of_leads_init {report : Report}
    (h : Leads (runInit path targets).run root (.ok report) root') :
    DiskOp.readFile root' (path.join standardWorkload.text) =
      .ok (workloadText targets).toUTF8 := by
  obtain ⟨mid, hwrite, hrest⟩ := leads_runInit h
  obtain ⟨made, -, hchange⟩ := leads_writeFile hwrite
  obtain ⟨-, -, hread⟩ := DiskOp.readFile_of_change hchange
  rcases hrest with rfl | hrest
  · exact hread
  · obtain ⟨made', hkeeps, hchange'⟩ := leads_writeFile hrest
    refine DiskOp.readFile_of_keeps ?_ hread
    refine (hkeeps _).trans (DiskOp.keeps_change hchange' ?_)
    rw [Path.names_join path (Path.isName_of_mem (by decide) (c := 'n') (by decide) (by decide)),
      Path.names_join path (Path.isName_of_mem (by decide) (c := 'w') (by decide) (by decide))]
    exact fun h ↦ absurd (List.append_cancel_left h) (by decide)

theorem run_load_after_init {report : Report}
    (h : Leads (run now (.init path targets)) root report root') (hdone : report.failure = none) :
    (WorkloadSpec.load (path.join standardWorkload.text)).run root' =
      (WorkloadSpec.ofBytes (workloadText targets).toUTF8, root') := by
  obtain ⟨result, hrun, hreport⟩ := leads_report h
  cases result with
  | ok r => exact WorkloadSpec.run_load (readFile_of_leads_init hrun)
  | error e =>
    subst hreport
    cases hdone

/-- A project is loaded with the providers it was begun for, each where it was named first, if none
of their names is read as something else than a text when it is not quoted. Otherwise the first of
these names is refused, for they are not quoted. -/
theorem load_after_init {report : Report}
    (h : Leads (run now (.init path targets)) root report root') (hdone : report.failure = none) :
    ((∀ p ∈ seeded targets, unquoted p.name = none) →
      (WorkloadSpec.load (path.join standardWorkload.text)).run root' =
        (.ok (templateSpec (seeded targets).eraseDups), root')) ∧
    ∀ early p late v, seeded targets = early ++ p :: late →
      (∀ q ∈ early, unquoted q.name = none) → unquoted p.name = some v →
        (WorkloadSpec.load (path.join standardWorkload.text)).run root' =
          (.error (.invalidType s!"spec.targets[{early.length}]" "a string" v.describe),
            root') := by
  rw [run_load_after_init h hdone]
  constructor
  · intro hnames
    rw [ofBytes_workloadText_ok hnames]
  · intro early p late v hsplit hearly hp
    rw [ofBytes_workloadText_error hsplit hearly hp]

section Begun

open Pipeline (epoch)
open Shipped (aws gcp)

theorem load_after_init_twice : ∃ root',
    Leads (run epoch (.init ⟨"."⟩ [gcp, aws, gcp])) (.dir [])
      ((run epoch (.init ⟨"."⟩ [gcp, aws, gcp])).run (.dir [])).1 root' ∧
    (WorkloadSpec.load (Path.join ⟨"."⟩ standardWorkload.text)).run root' =
      (.ok (templateSpec [gcp, aws]), root') := by
  have hbegun := leads_run (run epoch (.init ⟨"."⟩ [gcp, aws, gcp])) (.dir [])
  have hdone : ((run epoch (.init ⟨"."⟩ [gcp, aws, gcp])).run (.dir [])).1.failure = none :=
    Option.isNone_iff_eq_none.1 (by decide +kernel)
  have hload := (load_after_init hbegun hdone).1 (by decide)
  have hfirsts : (seeded [gcp, aws, gcp]).eraseDups = [gcp, aws] := by decide
  rw [hfirsts] at hload
  exact ⟨_, hbegun, hload⟩

def unnamed : Provider := ⟨"null", by decide⟩

theorem init_not_loaded : ¬ ∀ now path targets root report root',
    Leads (run now (.init path targets)) root report root' → report.failure = none →
      ∃ spec, (WorkloadSpec.load (path.join standardWorkload.text)).run root' = (.ok spec, root') ∧
        spec.targets = (seeded targets).eraseDups := by
  intro h
  have hbegun := leads_run (run epoch (.init ⟨"."⟩ [unnamed])) (.dir [])
  have hdone : ((run epoch (.init ⟨"."⟩ [unnamed])).run (.dir [])).1.failure = none :=
    Option.isNone_iff_eq_none.1 (by decide +kernel)
  obtain ⟨spec, hload, -⟩ := h epoch ⟨"."⟩ [unnamed] (.dir []) _ _ hbegun hdone
  have hrefused : WorkloadSpec.ofBytes (workloadText [unnamed]).toUTF8 =
      .error (.invalidType "spec.targets[0]" "a string" "null") :=
    @ofBytes_workloadText_error _ [] [] unnamed .null rfl nofun rfl
  rw [run_load_after_init hbegun hdone, hrefused] at hload
  cases hload

end Begun

end Command

end Multicloud
