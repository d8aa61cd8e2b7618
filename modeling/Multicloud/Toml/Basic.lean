namespace Multicloud.Toml

/-- How a table came to be, which decides what may still be added to it. -/
inductive Origin where
  | header
  | implied
  | dotted
  | inline
  deriving DecidableEq

inductive Value where
  | text (value : String)
  | bool (value : Bool)
  | plain (written : List Char)
  | list (items : List Value)
  | table (origin : Origin) (entries : List (String × Value))
  /-- Tables that share a header, the latest first. -/
  | tables (latest : List (List (String × Value)))

abbrev Entries := List (String × Value)

namespace Entries

def put (key : String) (v : Value) : Entries → Entries
  | [] => [(key, v)]
  | (k, w) :: rest => if k = key then (k, v) :: rest else (k, w) :: put key v rest

/-- Adds a value below a table; nothing is set twice. A key on the way has to name a table that no
header defines, and the last of these one that dotted keys have made. -/
def add (key : String) (v : Value) : List String → Entries → Option Entries
  | [], entries => if (entries.lookup key).isSome then none else some (put key v entries)
  | name :: rest, entries =>
    match entries.lookup name with
    | none => do
      return put name (.table .dotted (← add key v rest [])) entries
    | some (.table .dotted es) => do
      return put name (.table .dotted (← add key v rest es)) entries
    | some (.table .implied es) =>
      if rest.isEmpty then none
      else do return put name (.table .implied (← add key v rest es)) entries
    | some _ => none

def atHeader (f : Entries → Option Entries) : List String → Entries → Option Entries
  | [], entries => f entries
  | name :: rest, entries =>
    match entries.lookup name with
    | none => do return put name (.table .implied (← atHeader f rest [])) entries
    | some (.table .inline _) => none
    | some (.table origin es) => do
      return put name (.table origin (← atHeader f rest es)) entries
    | some (.tables (es :: older)) => do
      return put name (.tables ((← atHeader f rest es) :: older)) entries
    | some _ => none

def openTable (key : String) (entries : Entries) : Option Entries :=
  match entries.lookup key with
  | none => some (put key (.table .header []) entries)
  | some (.table .implied es) => some (put key (.table .header es) entries)
  | some _ => none

def openNext (key : String) (entries : Entries) : Option Entries :=
  match entries.lookup key with
  | none => some (put key (.tables [[]]) entries)
  | some (.tables older) => some (put key (.tables ([] :: older)) entries)
  | some _ => none

end Entries

end Multicloud.Toml
