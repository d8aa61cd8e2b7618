import Multicloud.Name.Label
import Multicloud.Name.Provider
import Multicloud.Text.Numeral

namespace Multicloud

inductive UsageFault where
  | unknownCommand
  | unknownArgument
  | missingValue
  | badValue
  | repeated
  | surplusValue
  | missingCommand
  | nothingGiven
  | help
  | version
  deriving DecidableEq, Repr

namespace UsageFault

/-- Who asks for help, or for the version, gets what they asked for. -/
def exitCode : UsageFault → Nat
  | help | version => 0
  | _ => 2

end UsageFault

namespace Arguments

inductive Form where
  | path
  | text
  | count
  | provider
  deriving DecidableEq

namespace Form

def check (form : Form) (s : String) : Except UsageFault Unit :=
  let fault? : Option UsageFault :=
    match form with
    | path => if s.isEmpty then some .missingValue else none
    | text => none
    | count => if (Text.readWord s.toList).isNone then some .badValue else none
    | provider => if (Provider.ofName? s).isNone then some .badValue else none
  match fault? with
  | some fault => .error fault
  | none => .ok ()

end Form

inductive Use where
  | switch
  | value (form : Form)
  /-- Values between commas; the option may be there again. -/
  | values (form : Form)
  | help
  | version
  deriving DecidableEq

structure Opt where
  name : String
  letter : Option Char := none
  use : Use
  deriving DecidableEq

namespace Opt

def takesValue (o : Opt) : Bool :=
  match o.use with
  | .value _ | .values _ => true
  | .switch | .help | .version => false

end Opt

structure Grammar where
  options : List Opt
  place : Option Opt := none
  commands : List String := []

namespace Grammar

def byName? (gr : Grammar) (name : String) : Option Opt :=
  gr.options.find? fun o ↦ o.name == name

def byLetter? (gr : Grammar) (c : Char) : Option Opt :=
  gr.options.find? fun o ↦ o.letter == some c

end Grammar

structure Given where
  values : List (String × List String) := []
  pending : Option (Opt × List String) := none
  /-- Whether the next argument is the value of the pending option. -/
  awaiting : Bool := false
  placed : Bool := false
  /-- Whether two dashes alone came before, after which nothing is an option. -/
  onlyPlaces : Bool := false

namespace Given

def has (g : Given) (name : String) : Bool := g.values.any fun v ↦ v.1 == name

def get (g : Given) (name : String) : List String :=
  (g.values.filter fun v ↦ v.1 == name).flatMap Prod.snd

def split (s : String) : List String := (Name.splitAt ',' s.toList).map String.ofList

def take (g : Given) (o : Opt) (raw : List String) : Except UsageFault Given := do
  let once (values : List String) : Except UsageFault Given :=
    if g.has o.name then throw .repeated
    else return { g with values := g.values ++ [(o.name, values)] }
  match o.use with
  | .help => throw .help
  | .version => throw .version
  | .switch => once []
  | .value form =>
    if raw.isEmpty then throw .missingValue
    let g ← once raw
    raw.forM form.check
    return g
  | .values form =>
    if raw.isEmpty then throw .missingValue
    let parts := raw.flatMap split
    parts.forM form.check
    return { g with values := g.values ++ [(o.name, parts)] }

def settle (g : Given) : Except UsageFault Given :=
  match g.pending with
  | none => return g
  | some (o, raw) => { g with pending := none }.take o raw

def accept (g : Given) (o : Opt) (raw : List String) : Except UsageFault Given := do
  return { (← (← g.settle).take o raw) with awaiting := false }

def await (g : Given) (o : Opt) : Except UsageFault Given := do
  return { (← g.settle) with pending := some (o, []), awaiting := true }

def long (gr : Grammar) (g : Given) (name : String) (value : Option String) :
    Except UsageFault Given :=
  match gr.byName? name with
  | none => throw .unknownArgument
  | some o =>
    match o.takesValue, value with
    | true, some v => g.accept o [v]
    | true, none => g.await o
    | false, some _ => throw .surplusValue
    | false, none => g.accept o []

/-- Options by letter; the value of one may follow at once. -/
def short (gr : Grammar) (g : Given) : List Char → Except UsageFault Given
  | [] => return g
  | c :: rest =>
    match gr.byLetter? c with
    | none => throw .unknownArgument
    | some o =>
      if o.takesValue then
        match rest with
        | [] => g.await o
        | '=' :: v => g.accept o [String.ofList v]
        | v => g.accept o [String.ofList v]
      else do short gr (← g.accept o []) rest

def place (gr : Grammar) (g : Given) (a : String) : Except UsageFault Given :=
  match gr.place, g.placed with
  | some o, false => do
    return { (← g.settle) with pending := some (o, [a]), placed := true }
  | _, _ =>
    if gr.commands.isEmpty || (g.onlyPlaces && a ∈ gr.commands) then throw .unknownArgument
    else throw .unknownCommand

def argument (gr : Grammar) (g : Given) (a : String) : Except UsageFault Given :=
  match a.toList with
  | '-' :: '-' :: body =>
    let value := body.dropWhile (· ≠ '=')
    long gr g (String.ofList (body.takeWhile (· ≠ '=')))
      (if value.isEmpty then none else some (String.ofList (value.drop 1)))
  | '-' :: c :: body => short gr g (c :: body)
  | _ =>
    match g.awaiting, g.pending with
    | true, some (o, raw) =>
      return { g with pending := some (o, raw ++ [a]), awaiting := false }
    | _, _ => place gr g a

end Given

def read (gr : Grammar) :
    Given → List String → Except UsageFault (Given × Option (String × List String))
  | g, [] => return (g, none)
  | g, a :: rest => do
    if g.onlyPlaces then
      read gr (← g.place gr a) rest
    else if !g.awaiting && a ∈ gr.commands then
      return (g, some (a, rest))
    else if a = "--" then
      read gr { g with onlyPlaces := true } rest
    else
      read gr (← g.argument gr a) rest

def readAll (gr : Grammar) (args : List String) : Except UsageFault Given := do
  let (g, _) ← read gr {} args
  g.settle

def readBelow {α : Type} (gr : Grammar) (args : List String)
    (below : String → List String → Except UsageFault α) : Except UsageFault (Given × α) := do
  let (g, found) ← read gr {} args
  match found with
  | some (name, rest) =>
    let a ← below name rest
    return (← g.settle, a)
  | none =>
    let g ← g.settle
    throw (if g.values.isEmpty then .nothingGiven else .missingCommand)

end Arguments

end Multicloud
