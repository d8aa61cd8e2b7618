import Multicloud.Command.Basic
import Multicloud.Command.Error
import Multicloud.Graph.Build
import Multicloud.Json.Written
import Multicloud.Rules.Shipped
import Multicloud.Run.Synthesis
import Multicloud.Verification
import Multicloud.Workload.Document

namespace Multicloud

namespace WorkloadSpec

def load (file : Path) : Script (Except SpecError WorkloadSpec) := do
  match ← Script.read file with
  | .error e => return .error (.unreadable file.text e.message)
  | .ok bytes => return ofBytes bytes

end WorkloadSpec

namespace Command

open Json (Value)

def loadSettings (config : Path) : Work Settings := do
  let settings ← Work.part .settings (Settings.load config)
  return settings.relativeTo (config.parent?.getD ⟨""⟩)

def loadDirs : Registry → List Path → Work Registry
  | g, [] => return g
  | g, dir :: rest => do
    let (result, g) ← (g.loadDir dir : Script _)
    let _ ← Work.ofExcept .registry result
    loadDirs g rest

def loadRegistry (settings : Settings) : Work Registry :=
  loadDirs Registry.builtin settings.extraDirs

def loadSpec (file : Path) : Work WorkloadSpec := Work.part .spec (WorkloadSpec.load file)

def buildGraph (spec : WorkloadSpec) : Work ResourceGraph :=
  Work.ofExcept .graph (ResourceGraph.build spec)

def pickTargets (spec : WorkloadSpec) (given : List Provider) : List Provider :=
  if given.isEmpty then spec.targets else given

def commas (items : List String) : String := ", ".intercalate items

def providerNames (targets : List Provider) : List String := targets.map Provider.name

def workloadTemplate : List String :=
  ["apiVersion: infrastructure.nebulaforge.io/v1", "kind: WorkloadCluster", "metadata:",
    "  name: primary-web", "  namespace: default", "spec:", "  compute:", "    nodes: 3",
    "    instanceType: medium-ha", "  networking:", "    topology: mesh", "    ingress:",
    "      domains: [example.com]", "  storage:", "    persistent: true",
    "    iopsClass: standard"]

def settingsTemplate : List String :=
  ["[output]", "dir = \"outputs\"", "", "[lock]", "path = \"nebulaforge.lock\"", "", "[cache]",
    "dir = \".nebulaforge/cache\"", "", "[registry]", "extra_dirs = []", "", "[registry.pins]", "",
    "[synthesis]", "parallel = true"]

def workloadText (targets : List Provider) : String :=
  let names := if targets.isEmpty then ["aws", "gcp"] else providerNames targets
  Report.textOf (workloadTemplate ++ ["  targets: [" ++ commas names ++ "]"])

def emitting (p : Path) (s : Script (Except DiskError Unit)) : Work Unit :=
  Script.orElse s fun e ↦ .emit (.io p e)

def writeFile (p : Path) (text : String) : Work Unit := do
  if let some dir := p.parent? then
    if !dir.text.isEmpty then
      emitting dir (Script.makeDirs dir)
  emitting p (Script.write p text)

def runInit (path : Path) (targets : List Provider) : Work Report := do
  let workload := path.join standardWorkload.text
  if ← Script.isPresent workload then
    throw (.workloadPresent workload)
  let settings := path.join Settings.standardPath.text
  writeFile workload (workloadText targets)
  let isNew := !(← Script.isPresent settings)
  if isNew then
    writeFile settings (Report.textOf settingsTemplate)
  let created := [workload] ++ if isNew then [settings] else []
  return {
    lines := s!"Initialized nebulaforge project at {path.text}" ::
      created.map fun p ↦ s!"  Created: {p.text}" }

def runValidate (file : Path) : Work Report := do
  let spec ← loadSpec file
  let g ← buildGraph spec
  let hash := Digest.short (g.hash Digest.blake3) 16
  return {
    lines :=
      [s!"OK: {g.workload} ({Nat.repr g.size} resources, {Nat.repr spec.targets.length} target(s), "
        ++ s!"graph {hash})"] }

def propertyJson : Property → Value
  | .bool b => .bool b
  | .int n => .ofNat n.toNat
  | .text s => .ofText s
  | .list items => .ofTexts items

def resourceJson (r : Resource) : Value :=
  .record
    [("id", .ofText r.id), ("kind", .ofText r.kind.name),
      ("properties", .record (r.properties.toList.map fun (k, v) ↦ (k, propertyJson v))),
      ("depends_on", .ofTexts r.dependsOn.toList)]

def numbered (lines : List String) : List String :=
  lines.zipIdx.map fun (line, i) ↦ "  " ++ Text.padStart 3 (Nat.repr (i + 1)) ++ ". " ++ line

def resourceLine (r : Resource) : String :=
  let deps := r.dependsOn.toList
  s!"{r.id} [{r.kind.name}]" ++ if deps.isEmpty then "" else " <- " ++ commas deps

def runGraph (file : Path) (json : Bool) : Work Report := do
  let g ← buildGraph (← loadSpec file)
  if json then
    return { lines := [(Value.list (g.resources.map resourceJson)).pretty] }
  else
    return {
      lines :=
        [s!"Graph: {g.workload} ({Nat.repr g.size} resources)", s!"Hash:  {g.hash Digest.blake3}"]
          ++ numbered (g.resources.map resourceLine) }

def assertionFields (a : Assertion) : List (String × Value) :=
  [("kind", .ofText a.kind.name), ("check", .ofText a.check.name),
    ("expected_count", .ofNat a.expectedCount), ("expected_state", .ofText a.expectedState)] ++
    (a.endpoint.toList.map fun e ↦ ("endpoint", .ofText e)) ++
    [("resources", .ofTexts a.resources)]

def assertionsJson (plan : List Assertion) (targets : List Provider) : Value :=
  if targets.isEmpty then .list (plan.map fun a ↦ .record (assertionFields a))
  else .list ((boundAssertions plan targets).map fun (p, a) ↦
    .record (("provider", .ofText p.name) :: assertionFields a))

def assertionLine (a : Assertion) : String :=
  let endpoint := (a.endpoint.map (" @ " ++ ·)).getD ""
  s!"{a.check.display} {a.kind.name} x{Nat.repr a.expectedCount} -> {a.expectedState}{endpoint}"

def runVerifyPlan (file : Path) (given : List Provider) (json : Bool) : Work Report := do
  let spec ← loadSpec file
  let targets := pickTargets spec given
  let g ← buildGraph spec
  let plan := g.verificationPlan
  if json then
    return { lines := [(assertionsJson plan targets).pretty] }
  else
    let last := if targets.isEmpty then [] else ["  targets: " ++ commas (providerNames targets)]
    return {
      lines := s!"Verification plan: {g.workload} ({Nat.repr plan.length} assertions)" ::
        numbered (plan.map assertionLine) ++ last }

def treeLine (out : Path) (g : ResourceGraph) (o : Outcome) (p : Provider)
    (artifacts : List Artifact) : String :=
  let version := (o.binding[p]?.map Version.text).getD ""
  let tree := (out.join (Artifact.treeName p g.name)).text
  let digest := Digest.short (Artifact.treeDigest Digest.blake3 artifacts) 16
  s!"  ok      {p.name} (rules {version}): {Nat.repr artifacts.length} artifacts -> " ++
    s!"{tree} [tree {digest}]"

def compositionLine (out : Path) (c : Composition) : String :=
  let file := ((out.join Emission.compositionDir).join c.fileName).text
  s!"  composition: {Nat.repr c.logicalIds.length} logical resources -> {file}"

def outcomeLines (out : Path) (g : ResourceGraph) (o : Outcome) : List String :=
  s!"Synthesis ({o.mode.name}): {g.workload}, graph {Digest.short o.graphHash 16}" ::
    o.artifacts.toList.map (fun (p, artifacts) ↦ treeLine out g o p artifacts) ++
    o.failures.values.map (fun f ↦ "  FAILED  " ++ f.message) ++
    o.cancelled.map (fun p ↦ s!"  skipped {p.name} (cancelled)") ++
    o.composition.toList.map (compositionLine out)

/-- Records a complete run. That this fails does not matter to the run. -/
def recordRun (log : LockLog) (now : Instant) (g : ResourceGraph) (o : Outcome)
    (targets : List Provider) : Script (List String) := do
  if o.isComplete then
    match ← log.commit now g.workload o.graphHash o.binding targets with
    | .ok e => return [s!"  lock: {e.runId} -> {log.path.text}"]
    | .error _ => return []
  else return []

def synthesis (args : SynthesizeArgs) (settings : Settings) (p : Pipeline) (g : ResourceGraph)
    (targets : List Provider) (previous : Option LockEntry) :
    Script (Except SynthesisError Outcome) := do
  let cache := if args.noCache then RunCache.inMemory else .inDir settings.cache
  let (result, _) ←
    if settings.parallel && !args.sequential then
      p.synthesizeConcurrently cache g targets previous (Pipeline.plainEvents targets)
    else p.synthesize cache g targets previous none
  return result

def runSynthesize (now : Instant) (args : SynthesizeArgs) : Work Report := do
  let settings ← loadSettings args.config
  let spec ← loadSpec args.file
  let targets := pickTargets spec args.targets
  let g ← buildGraph spec
  let registry ← loadRegistry settings
  let log : LockLog := ⟨settings.lock⟩
  let previous ← if args.force then pure none else (log.previous g.workload : Script _)
  let p : Pipeline := { registry, pins := settings.pins }
  let o ← Work.part .synthesis (synthesis args settings p g targets previous)
  let out := args.out.getD settings.output
  let _ ← Work.part .emit (Emission.writeOutcome out g.name o)
  let recorded ← (recordRun log now g o targets : Script _)
  return {
    lines := outcomeLines out g o ++ recorded
    failure := match o.check with
      | .ok _ => none
      | .error e => some (.synthesis e) }

def noEntries : String := "No lock entries. Run \x60nebulaforge synthesize\x60 first."

def entryLines (e : LockEntry) : List String :=
  [s!"Run: {e.runId} ({e.workload})", s!"  Timestamp: {e.time.offsetText}",
    s!"  Generator: {e.generator}", s!"  Graph:     {e.graphHash}"] ++
    e.binding.toList.map fun (p, v) ↦ s!"    {p.name}: rules {v.text}"

def entryLine (e : LockEntry) : String :=
  let targets := ",".intercalate (providerNames e.targets)
  "  ".intercalate
    [e.runId, e.time.offsetText, e.workload, Digest.short e.graphHash 12, s!"[{targets}]"]

def runLock (action : LockAction) (config : Path) : Work Report := do
  let settings ← loadSettings config
  let log : LockLog := ⟨settings.lock⟩
  match action with
  | .status workload =>
    let e ← Work.part .lock <| match workload with
      | some w => log.lastFor w
      | none => log.last
    return { lines := (e.map entryLines).getD [noEntries] }
  | .history limit =>
    let es ← Work.part .lock log.history
    let shown := es.drop (es.length - limit.getD es.length)
    return { lines := if es.isEmpty then [noEntries] else shown.map entryLine }

def ruleSetLines (g : Registry) (pins : Binding) (set : RuleSet) : List String :=
  let tags := (if g.latest? set.provider = some set.version then ["latest"] else []) ++
    if pins[set.provider]? = some set.version then ["pinned"] else []
  let tag := if tags.isEmpty then "" else s!" ({commas tags})"
  [s!"{set.provider.name} {set.version.text}{tag}  {set.description}",
    "    kinds: " ++ commas (set.kinds.map Kind.name)]

def runRegistry (config : Path) : Work Report := do
  let settings ← loadSettings config
  let g ← loadRegistry settings
  return { lines := g.ruleSets.flatMap (ruleSetLines g settings.pins) }

def removal (p : Path) (s : Script (Except DiskError Unit)) : Work (List Path) := do
  match ← s with
  | .ok () => return [p]
  | .error .notFound => return []
  | .error e => throw (.emit (.io p e))

def runClean (purgeLock : Bool) (config : Path) : Work Report := do
  let settings ← loadSettings config
  let outputs ← removal settings.output (Script.removeTree settings.output)
  let cache ← removal settings.cache (Script.removeTree settings.cache)
  let lock ← if purgeLock then removal settings.lock (Script.removeFile settings.lock) else pure []
  let removed := outputs ++ cache ++ lock
  return {
    lines := if removed.isEmpty then ["Nothing to clean."]
      else removed.map fun p ↦ s!"  Removed: {p.text}" }

def run (now : Instant) (c : Command) : Script Report :=
  Work.report <| match c with
    | .init path targets => runInit path targets
    | .validate file => runValidate file
    | .graph file json => runGraph file json
    | .synthesize args => runSynthesize now args
    | .verifyPlan file targets json => runVerifyPlan file targets json
    | .lock action config => runLock action config
    | .registry config => runRegistry config
    | .clean purgeLock config => runClean purgeLock config

end Command

end Multicloud
