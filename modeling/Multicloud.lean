import Multicloud.Artifact.Basic
import Multicloud.Artifact.Walk
import Multicloud.Binary64.Basic
import Multicloud.Binary64.Shortest
import Multicloud.Command.Arguments
import Multicloud.Command.Basic
import Multicloud.Command.Error
import Multicloud.Command.Run
import Multicloud.Composition
import Multicloud.Digest
import Multicloud.Digest.Blake3
import Multicloud.Disk.Path
import Multicloud.Disk.Script
import Multicloud.Disk.Tree
import Multicloud.Emission
import Multicloud.Graph.Basic
import Multicloud.Graph.Build
import Multicloud.Graph.Error
import Multicloud.Graph.Order
import Multicloud.Hcl.Block
import Multicloud.Hcl.Value
import Multicloud.Json.Basic
import Multicloud.Json.Reader
import Multicloud.Json.Record
import Multicloud.Json.Written
import Multicloud.Lock.Entry
import Multicloud.Lock.Log
import Multicloud.Main
import Multicloud.Name.Identifier
import Multicloud.Name.Label
import Multicloud.Name.Provider
import Multicloud.Name.Version
import Multicloud.Proofs.Artifact.Walk
import Multicloud.Proofs.Digest
import Multicloud.Proofs.Disk.Path
import Multicloud.Proofs.Disk.Script
import Multicloud.Proofs.Disk.Tree
import Multicloud.Proofs.Fallible
import Multicloud.Proofs.Graph.Acceptance
import Multicloud.Proofs.Graph.Built
import Multicloud.Proofs.Graph.Encoding
import Multicloud.Proofs.Graph.Separation
import Multicloud.Proofs.Graph.Sweep
import Multicloud.Proofs.Json.Record
import Multicloud.Proofs.Json.Written
import Multicloud.Proofs.Rules.Shipped
import Multicloud.Proofs.Run.Binding
import Multicloud.Proofs.Run.Cache
import Multicloud.Proofs.Run.History
import Multicloud.Proofs.Run.Noninterference
import Multicloud.Proofs.Run.Plan
import Multicloud.Proofs.Run.Stored
import Multicloud.Proofs.Text.Clean
import Multicloud.Proofs.Text.Separated
import Multicloud.Proofs.Workload.Document
import Multicloud.Registry
import Multicloud.Resource
import Multicloud.Rules.Basic
import Multicloud.Rules.Document
import Multicloud.Rules.Error
import Multicloud.Rules.Shipped
import Multicloud.Run.Binding
import Multicloud.Run.Cache
import Multicloud.Run.Outcome
import Multicloud.Run.Stored
import Multicloud.Run.Synthesis
import Multicloud.Settings
import Multicloud.Text.Blank
import Multicloud.Text.Numeral
import Multicloud.Time.Calendar
import Multicloud.Time.Instant
import Multicloud.Time.Rfc3339
import Multicloud.Toml.Basic
import Multicloud.Toml.Document
import Multicloud.Toml.Quoted
import Multicloud.Verification
import Multicloud.Workload.Document
import Multicloud.Workload.Error
import Multicloud.Workload.Spec
import Multicloud.Yaml.Cursor
import Multicloud.Yaml.Decode
import Multicloud.Yaml.Fault
import Multicloud.Yaml.Node
import Multicloud.Yaml.Scalar
import Multicloud.Yaml.Token.Basic
import Multicloud.Yaml.Token.Lexer
import Multicloud.Yaml.Token.Scalar
import Multicloud.Yaml.Token.Tag
import Multicloud.Yaml.Value
import Multicloud.Yaml.Written
import Multicloud.Proofs.Graph.Edges
import Multicloud.Proofs.Graph.Totality
import Multicloud.Proofs.Artifact.Progress
import Multicloud.Proofs.Rules.Supported
import Multicloud.Proofs.Run.Turns
import Multicloud.Proofs.Text.Numeral
import Multicloud.Proofs.Time.Calendar
import Multicloud.Proofs.Time.Rfc3339
import Multicloud.Proofs.Lock.Entry
import Multicloud.Proofs.Disk.Frame
import Multicloud.Proofs.Run.Files
import Multicloud.Proofs.Run.Call
import Multicloud.Proofs.Lock.Log
import Multicloud.Proofs.Run.Reuse
import Multicloud.Proofs.Graph.Overlay
import Multicloud.Proofs.Graph.Arrangement
import Multicloud.Proofs.Run.Arrangement
import Multicloud.Proofs.Registry
import Multicloud.Proofs.Run.Partition
import Multicloud.Proofs.Run.Schedule
import Multicloud.Proofs.Run.Cancellation
import Multicloud.Proofs.Disk.Fault
import Multicloud.Proofs.Disk.Beside
import Multicloud.Proofs.Disk.Yields
import Multicloud.Proofs.Emission.Swap
import Multicloud.Proofs.Json.Append
import Multicloud.Proofs.Disk.Text
import Multicloud.Proofs.Lock.Lines
import Multicloud.Proofs.Lock.Latest
import Multicloud.Proofs.Lock.Append
import Multicloud.Proofs.Disk.Interleaving
import Multicloud.Proofs.Lock.Interleaving
import Multicloud.Proofs.Rules.Document
import Multicloud.Proofs.Yaml.Reading
import Multicloud.Proofs.Rules.Arguments
import Multicloud.Proofs.Hcl.Lines
import Multicloud.Proofs.Hcl.Quoted
import Multicloud.Proofs.Artifact.Lines
import Multicloud.Proofs.Workload.Lone
import Multicloud.Proofs.Artifact.Files
import Multicloud.Proofs.Artifact.Refusal
import Multicloud.Proofs.Command.Anew
import Multicloud.Proofs.Command.Loading
import Multicloud.Proofs.Command.Reuse
import Multicloud.Proofs.Command.Synthesize
import Multicloud.Proofs.Emission.Composition
import Multicloud.Proofs.Workload.Refusals
import Multicloud.Proofs.Workload.Schema
import Multicloud.Proofs.Registry.Run
import Multicloud.Proofs.Run.Growth
import Multicloud.Proofs.Emission.Succession
import Multicloud.Proofs.Text.Bytes
import Multicloud.Proofs.Graph.Least
import Multicloud.Proofs.Graph.Cycle
import Multicloud.Proofs.Graph.Override
import Multicloud.Proofs.Graph.References
import Multicloud.Proofs.Run.Persistence
import Multicloud.Proofs.Disk.Smooth
import Multicloud.Proofs.Emission.Sound
import Multicloud.Proofs.Emission.Interrupted
import Multicloud.Proofs.Graph.Network
import Multicloud.Proofs.Verification
import Multicloud.Proofs.Hcl.Determined
import Multicloud.Proofs.Artifact.Determined
import Multicloud.Proofs.Rules.Upgrade
import Multicloud.Proofs.Artifact.TreeDigest
import Multicloud.Proofs.Graph.Countdown
import Multicloud.Proofs.Command.Clean
import Multicloud.Proofs.Command.Init
import Multicloud.Proofs.Time.RunId
