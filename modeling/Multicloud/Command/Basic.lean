import Multicloud.Command.Arguments
import Multicloud.Disk.Path
import Multicloud.Settings

namespace Multicloud

inductive LockAction where
  | status (workload : Option String)
  | history (limit : Option Nat)
  deriving DecidableEq

structure SynthesizeArgs where
  file : Path
  targets : List Provider
  out : Option Path
  force : Bool
  sequential : Bool
  noCache : Bool
  config : Path
  deriving DecidableEq

inductive Command where
  | init (path : Path) (targets : List Provider)
  | validate (file : Path)
  | graph (file : Path) (json : Bool)
  | synthesize (args : SynthesizeArgs)
  | verifyPlan (file : Path) (targets : List Provider) (json : Bool)
  | lock (action : LockAction) (config : Path)
  | registry (config : Path)
  | clean (purgeLock : Bool) (config : Path)
  deriving DecidableEq

namespace Command

open Arguments

def standardWorkload : Path := ⟨"workload.yaml"⟩

def help : Opt := { name := "help", letter := some 'h', use := .help }

def verbose : Opt := { name := "verbose", letter := some 'v', use := .switch }

def file : Opt := { name := "file", letter := some 'f', use := .value .path }

def json : Opt := { name := "json", use := .switch }

def targets : Opt := { name := "targets", letter := some 't', use := .values .provider }

def config : Opt := { name := "config", use := .value .path }

def common (options : List Opt) : Grammar := { options := help :: verbose :: options }

def topGrammar : Grammar :=
  { common [{ name := "version", letter := some 'V', use := .version }] with
    commands :=
      ["init", "validate", "graph", "synthesize", "verify-plan", "lock", "registry", "clean",
        "help"] }

def initGrammar : Grammar :=
  { common [{ name := "provider", letter := some 'p', use := .values .provider }] with
    place := some { name := "path", use := .value .path } }

def validateGrammar : Grammar := common [file]

def graphGrammar : Grammar := common [file, json]

def synthesizeGrammar : Grammar :=
  common
    [file, targets, { name := "out", letter := some 'o', use := .value .path },
      { name := "force", use := .switch }, { name := "sequential", use := .switch },
      { name := "no-cache", use := .switch }, config]

def verifyPlanGrammar : Grammar := common [file, targets, json]

def lockGrammar : Grammar := { common [config] with commands := ["status", "history", "help"] }

def statusGrammar : Grammar :=
  common [{ name := "workload", letter := some 'w', use := .value .text }]

def historyGrammar : Grammar :=
  common [{ name := "limit", letter := some 'n', use := .value .count }]

def registryGrammar : Grammar := common [config]

def cleanGrammar : Grammar := common [{ name := "purge-lock", use := .switch }, config]

def path? (g : Given) (name : String) : Option Path := (g.get name).head?.map Path.mk

def fileOf (g : Given) : Path := (path? g "file").getD standardWorkload

def configOf (g : Given) : Path := (path? g "config").getD Settings.standardPath

def providersOf (g : Given) (name : String) : List Provider :=
  (g.get name).filterMap Provider.ofName?

def commandsBelow : List String → List String
  | [] => topGrammar.commands
  | ["lock"] => lockGrammar.commands
  | _ => []

/-- Help on a command: each name has to be that of a command below the one before. -/
def helpOn {α : Type} : List String → List String → Except UsageFault α
  | _, [] => throw .help
  | path, name :: rest =>
    if name ∈ commandsBelow path then helpOn (path ++ [name]) rest else throw .unknownCommand

def readLock (args : List String) : Except UsageFault Command := do
  let (g, action) ← readBelow lockGrammar args fun name rest ↦ do
    match name with
    | "status" => return LockAction.status ((← readAll statusGrammar rest).get "workload").head?
    | "history" =>
      let limit := ((← readAll historyGrammar rest).get "limit").head?
      return LockAction.history (limit.bind fun s ↦ Text.readWord s.toList)
    | _ => helpOn ["lock"] rest
  return .lock action (configOf g)

def readCommand (name : String) (args : List String) : Except UsageFault Command := do
  match name with
  | "init" =>
    let g ← readAll initGrammar args
    return .init ((path? g "path").getD ⟨"."⟩) (providersOf g "provider")
  | "validate" => return .validate (fileOf (← readAll validateGrammar args))
  | "graph" =>
    let g ← readAll graphGrammar args
    return .graph (fileOf g) (g.has "json")
  | "synthesize" =>
    let g ← readAll synthesizeGrammar args
    return .synthesize
      { file := fileOf g, targets := providersOf g "targets", out := path? g "out"
        force := g.has "force", sequential := g.has "sequential", noCache := g.has "no-cache"
        config := configOf g }
  | "verify-plan" =>
    let g ← readAll verifyPlanGrammar args
    return .verifyPlan (fileOf g) (providersOf g "targets") (g.has "json")
  | "lock" => readLock args
  | "registry" => return .registry (configOf (← readAll registryGrammar args))
  | "clean" =>
    let g ← readAll cleanGrammar args
    return .clean (g.has "purge-lock") (configOf g)
  | _ => helpOn [] args

def ofArguments (args : List String) : Except UsageFault Command := do
  return (← readBelow topGrammar args readCommand).2

end Command

end Multicloud
