import Multicloud.Disk.Script
import Multicloud.Rules.Document

namespace Multicloud

inductive RegistryError where
  | invalid (origin : String) (fault : RuleSetFault)
  | duplicateRuleSet (provider : Provider) (version : Version)
  | io (path : Path) (cause : DiskError)
  deriving DecidableEq

namespace RegistryError

def message : RegistryError → String
  | invalid origin fault => s!"invalid rule set {origin}: {fault.message}"
  | duplicateRuleSet p v => s!"rule set {p.name} {v.text} is already registered"
  | io path cause => s!"cannot read rule sets from {path.text}: {cause.message}"

end RegistryError

structure Registry where
  sets : Std.ExtTreeMap Provider (Std.ExtTreeMap Version RuleSet)

namespace Registry

def empty : Registry := ⟨∅⟩

def versions (g : Registry) (p : Provider) : Std.ExtTreeMap Version RuleSet := g.sets.getD p ∅

/-- What is registered stays: a second rule set of a version is refused. -/
def register (g : Registry) (set : RuleSet) : Except RegistryError Registry :=
  let versions := g.versions set.provider
  if versions.contains set.version then .error (.duplicateRuleSet set.provider set.version)
  else .ok ⟨g.sets.insert set.provider (versions.insert set.version set)⟩

def loadText (g : Registry) (origin text : String) : Except RegistryError Registry :=
  match RuleSet.ofText text with
  | .error fault => .error (.invalid origin fault)
  | .ok set => g.register set

def isRuleFile (p : Path) : Bool := p.extension? = some "yaml" || p.extension? = some "yml"

def insertName (x : String) : List String → List String
  | [] => [x]
  | y :: rest => if y < x then y :: insertName x rest else x :: y :: rest

def sortNames (names : List String) : List String := names.foldr insertName []

def ruleFiles (dir : Path) : Script (Except DiskError (List Path)) := do
  match ← Script.list dir with
  | .error e => return .error e
  | .ok names =>
    let names ← (names.filter fun n ↦ isRuleFile (dir.join n)).filterM fun n ↦
      Script.isFile (dir.join n)
    return .ok ((sortNames names).map dir.join)

def loadFiles : Registry → List Path → Script (Except RegistryError Unit × Registry)
  | g, [] => return (.ok (), g)
  | g, p :: rest => do
    match ← Script.readText p with
    | .error e => return (.error (.io p e), g)
    | .ok text =>
      match g.loadText p.text text with
      | .error e => return (.error e, g)
      | .ok g => g.loadFiles rest

def loadDir (g : Registry) (dir : Path) : Script (Except RegistryError Nat × Registry) := do
  match ← ruleFiles dir with
  | .error e => return (.error (.io dir e), g)
  | .ok paths =>
    let (result, g) ← g.loadFiles paths
    return (result.map fun _ ↦ paths.length, g)

def providers (g : Registry) : List Provider := g.sets.keys

def ruleSets (g : Registry) : List RuleSet := g.sets.values.flatMap fun vs ↦ vs.values

def latest? (g : Registry) (p : Provider) : Option Version := (g.versions p).maxKey?

def ruleSet (g : Registry) (p : Provider) (v : Version) : Except MappingError RuleSet :=
  match g.sets[p]? with
  | none => .error (.unknownProvider p)
  | some versions =>
    match versions[v]? with
    | none => .error (.unknownVersion p v)
    | some set => .ok set

def resolve (g : Registry) (k : Kind) (p : Provider) (v : Version) : Except MappingError Rule := do
  match (← g.ruleSet p v).rule? k with
  | some rule => return rule
  | none => throw (.noRuleForKind k p)

/-- The version that a run goes by: the one asked for, or the latest. -/
def bind (g : Registry) (p : Provider) (pin : Option Version) : Except MappingError Version :=
  match pin with
  | some v => (g.ruleSet p v).map RuleSet.version
  | none =>
    match g.latest? p with
    | some v => .ok v
    | none => .error (.unknownProvider p)

end Registry

end Multicloud
