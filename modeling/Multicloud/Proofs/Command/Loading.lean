import Multicloud.Command.Run
import Multicloud.Proofs.Artifact.Files
import Multicloud.Proofs.Disk.Course
import Multicloud.Proofs.Disk.Footprint

namespace Multicloud

namespace Script

variable {α β : Type} {P : DiskOp → Prop}

theorem only_filterM {f : α → Script Bool} (h : ∀ a, Only P (f a)) (as : List α) :
    Only P (as.filterM f) := by
  have haux (acc : List α) : Only P (as.filterAuxM f acc) := by
    induction as generalizing acc with
    | nil => exact only_pure acc
    | cons a as ih => exact (h a).bind fun _ ↦ ih _
  exact (haux []).bind fun _ ↦ only_pure _

theorem only_isFile (p : Path) : Only DiskOp.IsLook (isFile p) :=
  Only.bind (only_step ⟨rfl, rfl⟩) fun _ ↦ only_pure _

end Script

open Script

namespace Settings

theorem only_load (p : Path) : Only DiskOp.IsLook (load p) := by
  refine Only.bind (only_readText p) fun answer ↦ ?_
  split <;> exact only_pure _

end Settings

namespace WorkloadSpec

theorem only_load (p : Path) : Only DiskOp.IsLook (load p) := by
  refine Only.bind (only_step ⟨rfl, rfl⟩) fun answer ↦ ?_
  split <;> exact only_pure _

theorem run_load {root : Tree} {file : Path} {bytes : ByteArray}
    (h : DiskOp.readFile root file = .ok bytes) : (load file).run root = (ofBytes bytes, root) := by
  rw [load, run_bind, Script.read, run_step, DiskOp.run, h]
  rfl

end WorkloadSpec

namespace Registry

variable {g g' : Registry} {root root' : Tree}

theorem only_ruleFiles (dir : Path) : Only DiskOp.IsLook (ruleFiles dir) := by
  refine Only.bind (only_step ⟨rfl, rfl⟩) fun answer ↦ ?_
  split
  · exact only_pure _
  · exact (only_filterM (fun n ↦ only_isFile (dir.join n)) _).bind fun _ ↦ only_pure _

theorem only_loadFiles (g : Registry) (ps : List Path) : Only DiskOp.IsLook (g.loadFiles ps) := by
  induction ps generalizing g with
  | nil => exact only_pure _
  | cons p ps ih =>
    refine Only.bind (only_readText p) fun answer ↦ ?_
    split
    · exact only_pure _
    · split
      · exact only_pure _
      · exact ih _

theorem only_loadDir (g : Registry) (dir : Path) : Only DiskOp.IsLook (g.loadDir dir) := by
  refine Only.bind (only_ruleFiles dir) fun answer ↦ ?_
  split
  · exact only_pure _
  · exact (g.only_loadFiles _).bind fun _ ↦ only_pure _

theorem Loaded.leads_loadFiles (h : Loaded g) {ps : List Path}
    {result : Except RegistryError Unit} (hl : Leads (g.loadFiles ps) root (result, g') root') :
    Loaded g' := by
  induction ps generalizing g root with
  | nil =>
    obtain ⟨heq, -⟩ := leads_pure.1 hl
    cases heq
    exact h
  | cons p ps ih =>
    obtain ⟨answer, root₁, -, hrest⟩ := leads_bind.1 hl
    split at hrest
    · obtain ⟨heq, -⟩ := leads_pure.1 hrest
      cases heq
      exact h
    · split at hrest
      · obtain ⟨heq, -⟩ := leads_pure.1 hrest
        cases heq
        exact h
      · next hload => exact ih (h.loadText hload) hrest

theorem Loaded.leads_loadDir (h : Loaded g) {dir : Path} {result : Except RegistryError Nat}
    (hl : Leads (g.loadDir dir) root (result, g') root') : Loaded g' := by
  obtain ⟨answer, root₁, -, hrest⟩ := leads_bind.1 hl
  split at hrest
  · obtain ⟨heq, -⟩ := leads_pure.1 hrest
    cases heq
    exact h
  · obtain ⟨⟨result', g''⟩, root₂, hfiles, hdone⟩ := leads_bind.1 hrest
    obtain ⟨heq, -⟩ := leads_pure.1 hdone
    cases heq
    exact h.leads_loadFiles hfiles

end Registry

namespace Command

variable {ε α : Type} {root root' : Tree} {args : SynthesizeArgs}

theorem onlyOr_part {P : DiskOp → Prop} {f : ε → CommandError} {s : Script (Except ε α)}
    (h : Only P s) : OnlyOr P (Work.part f s) :=
  Only.bind h fun _ ↦ only_pure _

theorem onlyOr_ofExcept {P : DiskOp → Prop} (f : ε → CommandError) (r : Except ε α) :
    OnlyOr P (Work.ofExcept f r) := only_pure _

theorem attempt_part {ε α : Type} (f : ε → CommandError) (s : Script (Except ε α)) (root : Tree) :
    attempt (Work.part f s) root = ((s.run root).1.mapError f, (s.run root).2) := run_bind s _ root

theorem attempt_lift {α : Type} (s : Script α) (root : Tree) :
    attempt (liftM s : Work α) root = (.ok (s.run root).1, (s.run root).2) := run_bind s _ root

/-- What a run is about, once all of it is loaded. -/
structure Inputs where
  settings : Settings
  spec : WorkloadSpec
  graph : ResourceGraph
  registry : Registry

namespace Inputs

variable {i : Inputs}

def load (args : SynthesizeArgs) : Work Inputs := do
  let settings ← loadSettings args.config
  let spec ← loadSpec args.file
  let graph ← buildGraph spec
  let registry ← loadRegistry settings
  return { settings, spec, graph, registry }

theorem onlyOr_loadDirs (g : Registry) (dirs : List Path) :
    OnlyOr DiskOp.IsLook (loadDirs g dirs) := by
  induction dirs generalizing g with
  | nil => exact onlyOr_pure _
  | cons dir dirs ih =>
    refine OnlyOr.bind (onlyOr_lift (g.only_loadDir dir)) fun loaded ↦ ?_
    exact OnlyOr.bind (onlyOr_ofExcept _ _) fun _ ↦ ih _

theorem onlyOr_load (args : SynthesizeArgs) : OnlyOr DiskOp.IsLook (load args) := by
  refine OnlyOr.bind (OnlyOr.bind (onlyOr_part (Settings.only_load _)) fun _ ↦ onlyOr_pure _)
    fun settings ↦ ?_
  refine OnlyOr.bind (onlyOr_part (WorkloadSpec.only_load _)) fun spec ↦ ?_
  refine OnlyOr.bind (onlyOr_ofExcept _ _) fun graph ↦ ?_
  exact OnlyOr.bind (onlyOr_loadDirs _ _) fun registry ↦ onlyOr_pure _

theorem loaded_of_leads_loadDirs {g g' : Registry} (h : g.Loaded) {dirs : List Path}
    (hl : Leads (loadDirs g dirs).run root (.ok g') root') : g'.Loaded := by
  induction dirs generalizing g root with
  | nil =>
    obtain ⟨heq, -⟩ := leads_pureOr.1 hl
    cases heq
    exact h
  | cons dir dirs ih =>
    obtain ⟨⟨result, g₁⟩, root₁, hdir, hrest⟩ := leads_bindOr_ok.1 hl
    obtain ⟨_, hdir, heq⟩ := leads_lift.1 hdir
    cases heq
    obtain ⟨_, root₂, -, hrest⟩ := leads_bindOr_ok.1 hrest
    exact ih (h.leads_loadDir hdir) hrest

theorem of_leads_load (h : Leads (load args).run root (.ok i) root') :
    (∃ document, WorkloadSpec.ofBytes document = .ok i.spec) ∧
      ResourceGraph.build i.spec = .ok i.graph ∧ i.registry.Loaded := by
  obtain ⟨settings, root₁, -, hrest⟩ := leads_bindOr_ok.1 h
  obtain ⟨spec, root₂, hspec, hrest⟩ := leads_bindOr_ok.1 hrest
  obtain ⟨graph, root₃, hgraph, hrest⟩ := leads_bindOr_ok.1 hrest
  obtain ⟨registry, root₄, hregistry, hdone⟩ := leads_bindOr_ok.1 hrest
  obtain ⟨heq, -⟩ := leads_pureOr.1 hdone
  cases heq
  refine ⟨?_, ?_, loaded_of_leads_loadDirs .builtin hregistry⟩
  · obtain ⟨answer, root₅, -, hload⟩ := leads_bind.1 (leads_mapError_ok.1 hspec)
    split at hload
    · obtain ⟨heq, -⟩ := leads_pure.1 hload
      cases heq
    · next bytes =>
      obtain ⟨heq, -⟩ := leads_pure.1 hload
      exact ⟨bytes, heq.symm⟩
  · obtain ⟨heq, -⟩ := leads_pure.1 hgraph
    exact ok_eq_mapError.1 heq

end Inputs

end Command

end Multicloud
