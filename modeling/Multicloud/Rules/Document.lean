import Multicloud.Rules.Basic
import Multicloud.Yaml.Decode

namespace Multicloud

inductive RuleSetFault where
  | notRuleSet (fault : Yaml.Fault)
  | identifierStart (text : String)
  | noRules
  | incompleteRule (kind : Kind)
  | strayOutput (kind : Kind) (argument : String)
  deriving DecidableEq

namespace RuleSetFault

def message : RuleSetFault → String
  | notRuleSet _ => "not a rule set"
  | identifierStart s => s!"identifier_prefix '{s}' must match [a-z_][a-z0-9_]*"
  | noRules => "rule set defines no rules"
  | incompleteRule k => s!"rule for {k.name} needs artifact, module and module_version"
  | strayOutput k a =>
    s!"rule for {k.name}: 'output' is only valid on reference substitutions ({a})"

end RuleSetFault

namespace Conversion

def ofName? (s : String) : Option Conversion :=
  if s = "verbatim" then some verbatim
  else if s = "instance_class" then some instanceClass
  else if s = "performance_class" then some performanceClass
  else if s = "reference" then some reference
  else none

end Conversion

namespace Property

def textOfYaml? : Yaml.Value → Option String
  | .text s => some s
  | _ => none

def ofYaml? : Yaml.Value → Option Property
  | .bool b => some (bool b)
  | .int n => if 0 ≤ n ∧ n.toNat < Text.wordLimit then some (int n.toNat.toUInt64) else none
  | .text s => some (text s)
  | .list items => (items.mapM textOfYaml?).map list
  | _ => none

end Property

structure RuleDraft where
  artifact : String
  moduleSource : String
  moduleVersion : String
  substitutions : List Substitution
  attributes : List (String × Property)

structure RuleSetDraft where
  provider : Provider
  version : Version
  description : String
  idStart : String
  /-- Of two rules for a kind the later counts. -/
  rules : List (Kind × RuleDraft)
  tables : Tables

namespace RuleSetDraft

open Yaml (Document Node Reading)

def known {α : Type} : Option α → Reading α
  | some a => pure a
  | none => throw .shape

def substitutionOf (doc : Document) (n : Node) : Reading Substitution := do
  let fields ← doc.fieldsOf ["property", "attribute", "translate", "output"] n
  let property ← Document.required fields "property" doc.textOf
  let argument ← Document.required fields "attribute" doc.textOf
  let conversion ← Document.optional fields "translate" Conversion.verbatim fun n ↦ do
    known (Conversion.ofName? (← doc.nameOf n))
  let output ← Document.optional fields "output" none doc.optionalTextOf
  return { property, argument, conversion, output }

def put (attributes : List (String × Property)) (name : String) (p : Property) :
    List (String × Property) :=
  match attributes with
  | [] => [(name, p)]
  | (k, v) :: rest => if k = name then (k, p) :: rest else (k, v) :: put rest name p

def attributesOf (doc : Document) (n : Node) : Reading (List (String × Property)) := do
  (← doc.entriesOf n).foldlM (fun acc (k, v) ↦ do
    let name ← doc.textOf k
    let value ← known (Property.ofYaml? (← doc.value Document.maxDepth v))
    return put acc name value) []

def ruleOf (doc : Document) (n : Node) : Reading RuleDraft := do
  let fields ← doc.fieldsOf
    ["artifact", "module", "module_version", "substitutions", "attributes"] n
  let artifact ← Document.required fields "artifact" doc.textOf
  let moduleSource ← Document.required fields "module" doc.textOf
  let moduleVersion ← Document.required fields "module_version" doc.textOf
  let substitutions ← Document.optional fields "substitutions" [] fun n ↦ do
    (← doc.itemsOf n).mapM (substitutionOf doc)
  let attributes ← Document.optional fields "attributes" [] (attributesOf doc)
  return { artifact, moduleSource, moduleVersion, substitutions, attributes }

def tableOf (doc : Document) (n : Node) : Reading (TextMap String) := do
  (← doc.entriesOf n).foldlM (fun acc (k, v) ↦ do
    return acc.insert (← doc.textOf k) (← doc.textOf v)) ∅

def tablesOf (doc : Document) (n : Node) : Reading Tables := do
  let fields ← doc.fieldsOf ["instance_class", "performance_class"] n
  let instanceClass ← Document.optional fields "instance_class" ∅ (tableOf doc)
  let performanceClass ← Document.optional fields "performance_class" ∅ (tableOf doc)
  return { instanceClass, performanceClass }

def read (doc : Document) : Reading RuleSetDraft := do
  let fields ← doc.fieldsOf
    ["provider", "version", "description", "identifier_prefix", "rules", "tables"] doc.root
  let provider ← Document.required fields "provider" fun n ↦ do
    known (Provider.ofName? (← doc.textOf n))
  let version ← Document.required fields "version" fun n ↦ do
    known (Version.ofText? (← doc.textOf n))
  let description ← Document.optional fields "description" "" doc.textOf
  let idStart ← Document.optional fields "identifier_prefix" "" doc.textOf
  let rules ← Document.required fields "rules" fun n ↦ do
    (← doc.entriesOf n).mapM fun (k, v) ↦ do
      return (← known (Kind.ofName? (← doc.nameOf k)), ← ruleOf doc v)
  let tables ← Document.optional fields "tables" {} (tablesOf doc)
  return { provider, version, description, idStart, rules, tables }

def rule? (d : RuleSetDraft) (k : Kind) : Option RuleDraft := d.rules.reverse.lookup k

/-- What is wrong with a rule: the kinds are looked at in their order. -/
def faultOfKind? (d : RuleSetDraft) (k : Kind) : Option RuleSetFault := do
  let r ← d.rule? k
  if r.artifact.isEmpty || r.moduleSource.isEmpty || r.moduleVersion.isEmpty then
    return .incompleteRule k
  let s ← r.substitutions.find? fun s ↦ s.output.isSome && s.conversion ≠ .reference
  return .strayOutput k s.argument

def fault? (d : RuleSetDraft) : Option RuleSetFault :=
  if !Name.isIdentifierStart d.idStart.toList then some (.identifierStart d.idStart)
  else if d.rules.isEmpty then some .noRules
  else Kind.all.findSome? d.faultOfKind?

def finish (d : RuleSetDraft) : RuleSet where
  provider := d.provider
  version := d.version
  description := d.description
  idStart := d.idStart
  rule? k := (d.rule? k).map fun r ↦
    { kind := k, provider := d.provider, version := d.version, artifact := r.artifact
      moduleSource := r.moduleSource, moduleVersion := r.moduleVersion
      substitutions := r.substitutions, attributes := r.attributes, tables := d.tables }

end RuleSetDraft

namespace RuleSet

def ofText (text : String) : Except RuleSetFault RuleSet :=
  let read : Except Yaml.Fault RuleSetDraft := do
    let doc ← Yaml.Document.ofText? text.toList
    let (draft, _) ← (RuleSetDraft.read doc).run 0
    return draft
  match read with
  | .error fault => .error (.notRuleSet fault)
  | .ok draft =>
    match draft.fault? with
    | some fault => .error fault
    | none => .ok draft.finish

end RuleSet

end Multicloud
