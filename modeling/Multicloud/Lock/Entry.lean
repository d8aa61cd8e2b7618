import Multicloud.Json.Record
import Multicloud.Json.Written
import Multicloud.Run.Binding
import Multicloud.Time.Rfc3339

namespace Multicloud

structure LockEntry where
  runId : String
  workload : String
  graphHash : String
  binding : Binding
  targets : List Provider
  time : Instant
  generator : String
  deriving DecidableEq

namespace LockEntry

def covers (e : LockEntry) (graphHash : String) (b : Binding) : Bool :=
  e.graphHash == graphHash && e.binding == b && e.targets == b.keys

open Json (Value)

def toJson (e : LockEntry) : Value :=
  .record
    [("run_id", .ofText e.runId), ("workload", .ofText e.workload),
      ("graph_hash", .ofText e.graphHash),
      ("registry_versions",
        .record (e.binding.toList.map fun (p, v) ↦ (p.name, .ofText v.text))),
      ("targets", .ofTexts (e.targets.map Provider.name)), ("timestamp", .ofText e.time.text),
      ("generator", .ofText e.generator)]

def provider? (v : Value) : Option Provider := v.text?.bind Provider.ofName?

def version? (v : Value) : Option Version := v.text?.bind Version.ofText?

def binding? (v : Value) : Option Binding := v.map? Provider.ofName? version?

def ofJson? (v : Value) : Option LockEntry := do
  let fields ← v.fields?
    ["run_id", "workload", "graph_hash", "registry_versions", "targets", "timestamp", "generator"]
  return {
    runId := ← fields.get? "run_id" Value.text?
    workload := ← fields.get? "workload" Value.text?
    graphHash := ← fields.get? "graph_hash" Value.text?
    binding := ← fields.get? "registry_versions" binding?
    targets := ← fields.get? "targets" (Value.list? provider?)
    time := ← fields.get? "timestamp" fun v ↦ v.text?.bind Instant.ofText?
    generator := ← fields.get? "generator" Value.text? }

def ofLine? (line : List Char) : Option LockEntry := (Value.ofText? line).bind ofJson?

end LockEntry

end Multicloud
