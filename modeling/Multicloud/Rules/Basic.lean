import Multicloud.Hcl.Value
import Multicloud.Name.Identifier
import Multicloud.Rules.Error

namespace Multicloud

inductive Conversion where
  | verbatim
  | instanceClass
  | performanceClass
  /-- The id of an earlier resource becomes an output of its module. -/
  | reference
  deriving DecidableEq, Repr

structure Substitution where
  property : String
  argument : String
  conversion : Conversion := .verbatim
  output : Option String := none
  deriving DecidableEq

structure Tables where
  instanceClass : TextMap String := ∅
  performanceClass : TextMap String := ∅
  deriving DecidableEq

structure Rule where
  kind : Kind
  provider : Provider
  version : Version
  artifact : String
  moduleSource : String
  moduleVersion : String
  substitutions : List Substitution
  /-- Constants, which yield to substitutions for the same attribute. -/
  attributes : List (String × Property)
  tables : Tables
  deriving DecidableEq

namespace Rule

def instanceType (rule : Rule) (name : String) : Except MappingError String :=
  match rule.tables.instanceClass[name]? with
  | some s => .ok s
  | none => .error (.unknownInstanceClass rule.provider name)

def storageTier (rule : Rule) (name : String) : Except MappingError String :=
  match rule.tables.performanceClass[name]? with
  | some s => .ok s
  | none => .error (.unknownPerformanceClass rule.provider name)

def value (rule : Rule) (r : Resource) (emitted : TextMap String) (s : Substitution)
    (p : Property) : Except MappingError Hcl.Value :=
  match s.conversion with
  | .verbatim => .ok (.ofProperty p)
  | .instanceClass => (rule.instanceType p.display).map .str
  | .performanceClass => (rule.storageTier p.display).map .str
  | .reference =>
    match emitted[p.display]? with
    | some target => .ok (.expr (Hcl.moduleOutput target (s.output.getD "id")))
    | none => .error (.unresolvedReference r.id p.display)

def substitute (rule : Rule) (r : Resource) (emitted : TextMap String) (s : Substitution) :
    Except MappingError (String × Hcl.Value) :=
  match r.properties[s.property]? with
  | some p => (rule.value r emitted s p).map fun v ↦ (s.argument, v)
  | none => .error (.missingProperty r.id s.property)

def convert (rule : Rule) (r : Resource) (emitted : TextMap String) :
    Except MappingError (List (String × Hcl.Value)) := do
  let substituted ← rule.substitutions.mapM (rule.substitute r emitted)
  let constants := rule.attributes.filter fun a ↦ !substituted.any fun b ↦ b.1 == a.1
  return substituted ++ constants.map fun (k, v) ↦ (k, .ofProperty v)

end Rule

structure RuleSet where
  provider : Provider
  version : Version
  description : String
  idStart : String
  rule? : Kind → Option Rule

namespace RuleSet

def kinds (set : RuleSet) : List Kind := Kind.all.filter fun k ↦ (set.rule? k).isSome

def identifier (set : RuleSet) (id : String) : String := Name.identifier set.idStart id

end RuleSet

end Multicloud
