import Multicloud.Json.Reader
import Std.Data.ExtTreeMap.Lemmas

namespace Multicloud.Json.Value

def text? : Value → Option String
  | text w => (unescape w).map String.ofList
  | _ => none

def list? {α : Type} (read : Value → Option α) : Value → Option (List α)
  | list items => items.mapM read
  | _ => none

def option? {α : Type} (read : Value → Option α) : Value → Option (Option α)
  | null => some none
  | v => (read v).map some

def entries? : Value → Option (List (String × Value))
  | object entries => entries.mapM fun (k, v) ↦ (unescape k).map fun k ↦ (String.ofList k, v)
  | _ => none

abbrev Fields := List (String × Value)

def addField (known : List String) (fields : Fields) (k : String) (v : Value) : Option Fields :=
  if k ∈ known then if (fields.lookup k).isSome then none else some ((k, v) :: fields)
  else some fields

/-- A record is an object with each of its fields at most once and any others beside them, or the
list of all its fields in order. -/
def fields? (known : List String) : Value → Option Fields
  | list items => if items.length = known.length then some (known.zip items) else none
  | v => do (← v.entries?).foldlM (fun fields (k, v) ↦ addField known fields k v) []

def Fields.get? {α : Type} (fields : Fields) (name : String) (read : Value → Option α) :
    Option α :=
  (fields.lookup name).bind read

/-- A map with keys of some kind: of two values for a key the later counts. -/
def map? {α β : Type} [Ord α] [Std.TransOrd α] (key : String → Option α) (read : Value → Option β)
    (v : Value) : Option (Std.ExtTreeMap α β) := do
  (← v.entries?).foldlM (fun m (k, v) ↦ do return m.insert (← key k) (← read v)) ∅

end Multicloud.Json.Value
