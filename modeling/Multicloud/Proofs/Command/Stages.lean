import Multicloud.Proofs.Command.Loading
import Multicloud.Proofs.Lock.Course
import Multicloud.Proofs.Run.Course
import Multicloud.Proofs.Run.Noninterference

namespace Multicloud.Command

open Script
open Emission (writeOutcome)

variable {now : Instant} {args : SynthesizeArgs} {i : Inputs} {root root₁ root' : Tree}
  {o : Outcome}

def Inputs.targets (args : SynthesizeArgs) (i : Inputs) : List Provider :=
  pickTargets i.spec args.targets

def Inputs.pipeline (i : Inputs) : Pipeline := { registry := i.registry, pins := i.settings.pins }

def Inputs.out (args : SynthesizeArgs) (i : Inputs) : Path := args.out.getD i.settings.output

def Inputs.log (i : Inputs) : LockLog := ⟨i.settings.lock⟩

def Inputs.cache (args : SynthesizeArgs) (i : Inputs) : RunCache :=
  if args.noCache then .inMemory else .inDir i.settings.cache

def Inputs.manner (args : SynthesizeArgs) (i : Inputs) : Pipeline.Manner :=
  if i.settings.parallel && !args.sequential then
    .sideBySide (Pipeline.plainEvents (i.targets args))
  else .inTurn none

def Inputs.call (args : SynthesizeArgs) (i : Inputs) (previous : Option LockEntry) :
    Pipeline.Call :=
  ⟨i.graph, i.targets args, previous, i.manner args⟩

/-- The run before, unless it is not to be looked for. -/
def Inputs.previous (args : SynthesizeArgs) (i : Inputs) : Work (Option LockEntry) :=
  if args.force then pure none else (i.log.previous i.graph.workload : Script _)

def Inputs.report (args : SynthesizeArgs) (i : Inputs) (o : Outcome) (recorded : List String) :
    Report where
  lines := outcomeLines (i.out args) i.graph o ++ recorded
  failure := match o.check with
    | .ok _ => none
    | .error e => some (.synthesis e)

def Inputs.conclude (now : Instant) (args : SynthesizeArgs) (i : Inputs) (o : Outcome) :
    Work Report := do
  let _ ← Work.part .emit (Emission.writeOutcome (i.out args) i.graph.name o)
  return i.report args o (← (recordRun i.log now i.graph o (i.targets args) : Script _))

/-- The command once all is loaded. -/
def proceed (now : Instant) (args : SynthesizeArgs) (i : Inputs) : Work Report := do
  let previous ← i.previous args
  let o ← Work.part .synthesis
    (synthesis args i.settings i.pipeline i.graph (i.targets args) previous)
  i.conclude now args o

theorem runSynthesize_eq (now : Instant) (args : SynthesizeArgs) :
    runSynthesize now args = Inputs.load args >>= proceed now args := by
  simp only [Inputs.load, bind_assoc, pure_bind, proceed, Inputs.previous]
  unfold runSynthesize
  cases args.force <;> rfl

theorem run_report {w : Work Report} {report : Report} (h : attempt w root = (.ok report, root')) :
    w.report.run root = (report, root') := by
  have hrun : w.run.run root = (.ok report, root') := h
  rw [Work.report, run_bind, hrun]
  rfl

/-- What is loaded does not depend on when the command is run. -/
theorem run_synthesize (h : attempt (Inputs.load args) root = (.ok i, root)) :
    (run now (.synthesize args)).run root = (proceed now args i).report.run root := by
  have hproceed : (Inputs.load args >>= proceed now args).run.run root =
      (proceed now args i).run.run root := attempt_bind_ok h _
  unfold run Work.report
  rw [run_bind, run_bind]
  dsimp only
  rw [runSynthesize_eq, hproceed]

theorem synthesis_eq (args : SynthesizeArgs) (i : Inputs) (previous : Option LockEntry) :
    synthesis args i.settings i.pipeline i.graph (i.targets args) previous = (do
      let (result, _) ← i.pipeline.call (i.cache args) (i.call args previous)
      return result) := by
  unfold synthesis Inputs.call Inputs.manner Inputs.cache
  cases args.noCache <;> cases i.settings.parallel && !args.sequential <;> rfl

theorem ran_of_leads_synthesis {previous : Option LockEntry}
    {result : Except SynthesisError Outcome}
    (h : Leads (synthesis args i.settings i.pipeline i.graph (i.targets args) previous) root result
      root') : Pipeline.Ran i.pipeline (i.call args previous) (i.cache args) root result root' := by
  rw [synthesis_eq] at h
  obtain ⟨⟨answer, c⟩, root₁, hcall, hdone⟩ := leads_bind.1 h
  obtain ⟨rfl, rfl⟩ := leads_pure.1 hdone
  exact Pipeline.ran_of_leads hcall

def Inputs.before (args : SynthesizeArgs) (i : Inputs) (root : Tree) : Option LockEntry :=
  if args.force then none else ((i.log.previous i.graph.workload).run root).1

theorem Inputs.before_of_run {before : Option LockEntry} (hforce : args.force = false)
    (h : (i.log.previous i.graph.workload).run root = (before, root)) :
    i.before args root = before := by
  rw [Inputs.before, if_neg (by simp [hforce]), h]

theorem attempt_previous (args : SynthesizeArgs) (i : Inputs) (root : Tree) :
    attempt (i.previous args) root = (.ok (i.before args root), root) := by
  unfold Inputs.previous Inputs.before
  split
  · rfl
  · rw [attempt_lift, i.log.run_previous]

theorem attempt_proceed (now : Instant) (args : SynthesizeArgs) (i : Inputs) (root : Tree) :
    attempt (proceed now args i) root =
      match (i.pipeline.call (i.cache args) (i.call args (i.before args root))).run root with
      | ((.ok o, _), root₁) => attempt (i.conclude now args o) root₁
      | ((.error e, _), root₁) => (.error (.synthesis e), root₁) := by
  rw [proceed, attempt_bind_ok (attempt_previous args i root), attempt_bind, attempt_part,
    synthesis_eq, run_bind]
  rcases (i.pipeline.call (i.cache args) (i.call args (i.before args root))).run root with
    ⟨⟨e | o, c⟩, root₁⟩ <;> rfl

theorem attempt_conclude (now : Instant) (args : SynthesizeArgs) (i : Inputs) (o : Outcome)
    (root : Tree) : attempt (i.conclude now args o) root =
      match attempt (writeOutcome (i.out args) i.graph.name o) root with
      | (.ok _, root₁) =>
        let recorded := (recordRun i.log now i.graph o (i.targets args)).run root₁
        (.ok (i.report args o recorded.1), recorded.2)
      | (.error e, root₁) => (.error (.emit e), root₁) := by
  have hpart : attempt (Work.part .emit (writeOutcome (i.out args) i.graph.name o)) root =
      ((attempt (writeOutcome (i.out args) i.graph.name o) root).1.mapError CommandError.emit,
        (attempt (writeOutcome (i.out args) i.graph.name o) root).2) := attempt_part _ _ root
  rw [Inputs.conclude, attempt_bind, hpart]
  rcases attempt (writeOutcome (i.out args) i.graph.name o) root with ⟨e | ps, root₁⟩
  · rfl
  · dsimp only [Except.mapError]
    rw [attempt_bind, attempt_lift]
    rfl

theorem leads_report {w : Work Report} {report : Report} (h : Leads w.report root report root') :
    ∃ result, Leads w.run root result root' ∧
      report = match result with
        | .ok r => r
        | .error e => { lines := [], failure := some e } := by
  obtain ⟨result, root₁, hw, hdone⟩ := leads_bind.1 h
  refine ⟨result, ?_⟩
  cases result with
  | ok r =>
    obtain ⟨rfl, rfl⟩ := leads_pure.1 hdone
    exact ⟨hw, rfl⟩
  | error e =>
    obtain ⟨rfl, rfl⟩ := leads_pure.1 hdone
    exact ⟨hw, rfl⟩

theorem leads_previous {result : Except CommandError (Option LockEntry)}
    (h : Leads (i.previous args).run root result root') :
    root' = root ∧ ∃ previous, result = .ok previous := by
  unfold Inputs.previous at h
  split at h
  · obtain ⟨rfl, rfl⟩ := leads_pureOr.1 h
    exact ⟨rfl, none, rfl⟩
  · obtain ⟨previous, hlook, rfl⟩ := leads_lift.1 h
    exact ⟨(i.log.only_previous _).eq_of_reaches hlook.reaches, previous, rfl⟩

/-- How far a command can come once all is loaded. -/
inductive Proceeds (now : Instant) (args : SynthesizeArgs) (i : Inputs) (root : Tree) :
    Except CommandError Report → Tree → Prop
  | refused {previous : Option LockEntry} {e : SynthesisError} {root' : Tree}
      (hran : Pipeline.Ran i.pipeline (i.call args previous) (i.cache args) root (.error e) root') :
      Proceeds now args i root (.error (.synthesis e)) root'
  | stopped {previous : Option LockEntry} {o : Outcome} {e : EmitError} {root₁ root' : Tree}
      (hran : Pipeline.Ran i.pipeline (i.call args previous) (i.cache args) root (.ok o) root₁)
      (hwrite : Leads (writeOutcome (i.out args) i.graph.name o).run root₁ (.error e) root') :
      Proceeds now args i root (.error (.emit e)) root'
  | done {previous : Option LockEntry} {o : Outcome} {ps : List Path} {recorded : List String}
      {root₁ root₂ root' : Tree}
      (hran : Pipeline.Ran i.pipeline (i.call args previous) (i.cache args) root (.ok o) root₁)
      (hwrite : Leads (writeOutcome (i.out args) i.graph.name o).run root₁ (.ok ps) root₂)
      (hrecord : Leads (recordRun i.log now i.graph o (i.targets args)) root₂ recorded root') :
      Proceeds now args i root (.ok (i.report args o recorded)) root'

theorem proceeds_of_leads {result : Except CommandError Report}
    (h : Leads (proceed now args i).run root result root') :
    Proceeds now args i root result root' := by
  rcases leads_bindOr.1 h with ⟨previous, root₀, hprevious, hrest⟩ | ⟨e, hprevious, -⟩
  · obtain ⟨rfl, -⟩ := leads_previous hprevious
    rcases leads_bindOr.1 hrest with ⟨o, root₁, hsynthesis, hrest⟩ | ⟨e, hsynthesis, rfl⟩
    · have hran := ran_of_leads_synthesis (leads_mapError_ok.1 hsynthesis)
      rcases leads_bindOr.1 hrest with ⟨ps, root₂, hwrite, hrest⟩ | ⟨e, hwrite, rfl⟩
      · have hwrite := leads_mapError_ok.1 hwrite
        rcases leads_bindOr.1 hrest with ⟨recorded, root₃, hrecord, hdone⟩ | ⟨e, hrecord, -⟩
        · obtain ⟨_, hrecord, heq⟩ := leads_lift.1 hrecord
          cases heq
          obtain ⟨rfl, rfl⟩ := leads_pureOr.1 hdone
          exact .done hran hwrite hrecord
        · obtain ⟨_, -, heq⟩ := leads_lift.1 hrecord
          cases heq
      · obtain ⟨answer, hstop, heq⟩ := leads_mapError.1 hwrite
        cases answer with
        | ok ps => cases heq
        | error e' =>
          cases heq
          exact .stopped hran hstop
    · obtain ⟨answer, hrefuse, heq⟩ := leads_mapError.1 hsynthesis
      cases answer with
      | ok o => cases heq
      | error e' =>
        cases heq
        exact .refused (ran_of_leads_synthesis hrefuse)
  · obtain ⟨-, previous, heq⟩ := leads_previous hprevious
    cases heq

theorem leads_recordRun {log : LockLog} {g : ResourceGraph} {targets : List Provider}
    {recorded : List String} (h : Leads (recordRun log now g o targets) root recorded root') :
    (o.isComplete = true ∧ ∃ answer,
      Leads (log.commit now g.workload o.graphHash o.binding targets) root answer root') ∨
      root' = root := by
  unfold recordRun at h
  split at h
  · next hc =>
    obtain ⟨answer, root₁, hcommit, hdone⟩ := leads_bind.1 h
    cases answer with
    | ok e =>
      obtain ⟨-, rfl⟩ := leads_pure.1 hdone
      exact .inl ⟨hc, _, hcommit⟩
    | error e =>
      obtain ⟨-, rfl⟩ := leads_pure.1 hdone
      exact .inl ⟨hc, _, hcommit⟩
  · exact .inr (leads_pure.1 h).2

end Multicloud.Command
