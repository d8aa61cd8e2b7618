import Multicloud.Disk.Script
import Multicloud.Run.Binding
import Multicloud.Toml.Document

namespace Multicloud

inductive SettingsError where
  | io (path : Path) (cause : DiskError)
  | invalid (path : Path)
  deriving DecidableEq

namespace SettingsError

def message : SettingsError → String
  | io path cause => s!"cannot read {path.text}: {cause.message}"
  | invalid path => s!"invalid settings in {path.text}"

end SettingsError

structure Settings where
  output : Path := ⟨"outputs"⟩
  lock : Path := ⟨"nebulaforge.lock"⟩
  cache : Path := ⟨".nebulaforge/cache"⟩
  extraDirs : List Path := []
  pins : Binding := ∅
  parallel : Bool := true

namespace Settings

def standardPath : Path := ⟨"nebulaforge.toml"⟩

open Toml (Value Entries)

/-- A table of known fields, or a list with the values of the first of them. -/
def fields? (known : List String) : Value → Option Entries
  | .table _ entries => if entries.all fun e ↦ e.1 ∈ known then some entries else none
  | .list items => some (known.zip items)
  | _ => none

def field {α : Type} (entries : Entries) (name : String) (default : α) (read : Value → Option α) :
    Option α :=
  match entries.lookup name with
  | some v => read v
  | none => some default

def path? : Value → Option Path
  | .text s => some ⟨s⟩
  | _ => none

def bool? : Value → Option Bool
  | .bool b => some b
  | _ => none

def paths? : Value → Option (List Path)
  | .list items => items.mapM path?
  | _ => none

def pins? : Value → Option Binding
  | .table _ entries =>
    entries.foldlM (fun pins (p, v) ↦
      match v with
      | .text s => do return pins.insert (← Provider.ofName? p) (← Version.ofText? s)
      | _ => none) ∅
  | _ => none

/-- Whatever is not said stays at its default; nothing else may be said. -/
def ofEntries? (root : Entries) : Option Settings := do
  let default : Settings := {}
  let top ← fields? ["output", "lock", "cache", "registry", "synthesis"] (.table .header root)
  let one {α : Type} (group name : String) (default : α) (read : Value → Option α) : Option α :=
    field top group default fun v ↦ do field (← fields? [name] v) name default read
  let output ← one "output" "dir" default.output path?
  let lock ← one "lock" "path" default.lock path?
  let cache ← one "cache" "dir" default.cache path?
  let (extraDirs, pins) ← field top "registry" (default.extraDirs, default.pins) fun v ↦ do
    let registry ← fields? ["extra_dirs", "pins"] v
    return (← field registry "extra_dirs" default.extraDirs paths?,
      ← field registry "pins" default.pins pins?)
  let parallel ← one "synthesis" "parallel" default.parallel bool?
  return { output, lock, cache, extraDirs, pins, parallel }

def ofText (path : Path) (text : String) : Except SettingsError Settings :=
  match (Toml.ofText? text.toList).bind ofEntries? with
  | some s => .ok s
  | none => .error (.invalid path)

/-- No file is a file that says nothing. -/
def load (path : Path) : Script (Except SettingsError Settings) := do
  match ← Script.readText path with
  | .ok text => return ofText path text
  | .error .notFound => return .ok {}
  | .error e => return .error (.io path e)

def relativeTo (base : Path) (s : Settings) : Settings :=
  { s with
    output := base.join s.output.text
    lock := base.join s.lock.text
    cache := base.join s.cache.text
    extraDirs := s.extraDirs.map fun p ↦ base.join p.text }

end Settings

end Multicloud
