import Multicloud.Lock.Entry
import Multicloud.Run.Cache
import Multicloud.Run.Outcome
import Std.Data.ExtTreeSet.Lemmas

namespace Multicloud

inductive TargetRun where
  | done (artifacts : List Artifact)
  | failed (failure : TargetFailure)
  | cancelled
  deriving DecidableEq

namespace TargetRun

def of : Except TargetFailure (List Artifact) → TargetRun
  | .ok artifacts => done artifacts
  | .error f => failed f

def artifacts? : TargetRun → Option (List Artifact)
  | done artifacts => some artifacts
  | _ => none

def failure? : TargetRun → Option TargetFailure
  | failed f => some f
  | _ => none

end TargetRun

structure Pipeline where
  registry : Registry
  pins : Binding := ∅
  digest : Digester := Digest.blake3

/-- What is fixed about a run before the work begins. -/
structure Plan where
  graphHash : String
  requested : List Provider
  binding : Binding
  unbound : FailureMap

abbrev Bound := List (Provider × Version)

abbrev TargetRuns := List (Provider × TargetRun)

namespace Pipeline

def bind (p : Pipeline) (target : Provider) : Except MappingError Version :=
  p.registry.bind target p.pins[target]?

def bound? (p : Pipeline) (target : Provider) : Option (Provider × Version) :=
  match p.bind target with
  | .ok v => some (target, v)
  | .error _ => none

def unbound? (p : Pipeline) (target : Provider) : Option (Provider × TargetFailure) :=
  match p.bind target with
  | .ok _ => none
  | .error e => some (target, Walk.failure target none e)

def plan (p : Pipeline) (g : ResourceGraph) (targets : List Provider) :
    Except SynthesisError Plan :=
  let requested := (Std.ExtTreeSet.ofList targets compare).toList
  if requested.isEmpty then .error .noTargets
  else .ok
    { graphHash := g.hash p.digest
      requested
      binding := .of (requested.filterMap p.bound?)
      unbound := .ofList (requested.filterMap p.unbound?) compare }

def walk (p : Pipeline) (g : ResourceGraph) (target : Provider × Version) : TargetRun :=
  .of (walkTarget g p.registry target.1 target.2)

/-- One target after the other. Cancellation comes after so many of them, or never. -/
def inTurn (walk : Provider × Version → TargetRun) : Option Nat → Bound → TargetRuns
  | _, [] => []
  | some 0, t :: rest => (t.1, .cancelled) :: inTurn walk (some 0) rest
  | some (k + 1), t :: rest => (t.1, walk t) :: inTurn walk (some k) rest
  | none, t :: rest => (t.1, walk t) :: inTurn walk none rest

end Pipeline

/-- What happens while targets are worked on side by side. -/
inductive Event where
  /-- The work on a target begins, unless the run was cancelled before. -/
  | start (target : Provider)
  | finish (target : Provider)
  | cancel
  deriving DecidableEq

structure Floor where
  isCancelled : Bool := false
  begun : Std.ExtTreeMap Provider TargetRun := ∅
  finished : Std.ExtTreeMap Provider TargetRun := ∅

namespace Pipeline

def handle (walk : Provider × Version → TargetRun) (bound : Bound) (f : Floor) : Event → Floor
  | .cancel => { f with isCancelled := true }
  | .start target =>
    match bound.find? fun t ↦ t.1 == target with
    | none => f
    | some t =>
      let r := if f.isCancelled then .cancelled else walk t
      { f with begun := f.begun.insert target r }
  | .finish target =>
    match f.begun[target]? with
    | none => f
    | some r => { f with finished := f.finished.insert target r }

/-- All targets at once. The results are taken in the order of the targets, whatever came first. -/
def sideBySide (walk : Provider × Version → TargetRun) (events : List Event) (bound : Bound) :
    TargetRuns :=
  let f := events.foldl (handle walk bound) {}
  bound.map fun t ↦ (t.1, f.finished.getD t.1 .cancelled)

def plainEvents (targets : List Provider) : List Event :=
  targets.flatMap fun t ↦ [.start t, .finish t]

def composition (g : ResourceGraph) (plan : Plan) (artifacts : ArtifactMap)
    (cancelled : List Provider) : Option Composition :=
  if 1 < plan.requested.length && !artifacts.isEmpty && cancelled.isEmpty then
    some (Composition.compose g plan.graphHash artifacts)
  else none

def assemble (g : ResourceGraph) (plan : Plan) (runs : TargetRuns) : Outcome :=
  let artifacts : ArtifactMap :=
    .ofList (runs.filterMap fun (t, r) ↦ r.artifacts?.map fun as ↦ (t, as)) compare
  let failed := runs.filterMap fun (t, r) ↦ r.failure?.map fun f ↦ (t, f)
  let cancelled := (runs.filter fun (_, r) ↦ r = .cancelled).map Prod.fst
  { mode := .full
    graphHash := plan.graphHash
    binding := plan.binding
    artifacts
    failures := plan.unbound.insertMany failed
    cancelled
    composition := composition g plan artifacts cancelled }

def reused (plan : Plan) (run : StoredRun) : Outcome where
  mode := .incremental
  graphHash := plan.graphHash
  binding := plan.binding
  artifacts := run.artifacts
  failures := ∅
  cancelled := []
  composition := run.composition

/-- The run of an earlier time, if its entry has the same inputs and its results are still there. -/
def reuse (p : Pipeline) (cache : RunCache) (plan : Plan) (previous : Option LockEntry) :
    Script (Option Outcome × RunCache) := do
  let some e := previous | return (none, cache)
  if !plan.unbound.isEmpty || !e.covers plan.graphHash plan.binding then
    return (none, cache)
  let (run?, cache) ← cache.get (plan.binding.key p.digest plan.graphHash)
  return (run?.map (reused plan), cache)

def keep (p : Pipeline) (cache : RunCache) (o : Outcome) : Script RunCache :=
  if o.isComplete then
    cache.put (o.binding.key p.digest o.graphHash) o.stored
  else return cache

def run (p : Pipeline) (cache : RunCache) (g : ResourceGraph) (targets : List Provider)
    (previous : Option LockEntry) (work : Bound → TargetRuns) :
    Script (Except SynthesisError Outcome × RunCache) := do
  match p.plan g targets with
  | .error e => return (.error e, cache)
  | .ok plan =>
    let (reused?, cache) ← p.reuse cache plan previous
    match reused? with
    | some o => return (.ok o, cache)
    | none =>
      let o := assemble g plan (work plan.binding.toList)
      return (.ok o, ← p.keep cache o)

def synthesize (p : Pipeline) (cache : RunCache) (g : ResourceGraph) (targets : List Provider)
    (previous : Option LockEntry) (cancelAfter : Option Nat) :
    Script (Except SynthesisError Outcome × RunCache) :=
  p.run cache g targets previous (inTurn (p.walk g) cancelAfter)

def synthesizeConcurrently (p : Pipeline) (cache : RunCache) (g : ResourceGraph)
    (targets : List Provider) (previous : Option LockEntry) (events : List Event) :
    Script (Except SynthesisError Outcome × RunCache) :=
  p.run cache g targets previous (sideBySide (p.walk g) events)

end Pipeline

end Multicloud
