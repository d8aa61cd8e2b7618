import Multicloud.Json.Basic

namespace Multicloud.Json.Value

def quoted (written : List Char) : List Char := '"' :: written ++ ['"']

mutual

def compact : Value → List Char
  | null => "null".toList
  | bool true => "true".toList
  | bool false => "false".toList
  | number w => w
  | text w => quoted w
  | list [] => "[]".toList
  | list (v :: rest) => '[' :: compact v ++ compactItems rest
  | object [] => "\x7b\x7d".toList
  | object ((k, v) :: rest) => '\x7b' :: quoted k ++ ':' :: compact v ++ compactEntries rest

def compactItems : List Value → List Char
  | [] => [']']
  | v :: rest => ',' :: compact v ++ compactItems rest

def compactEntries : List (List Char × Value) → List Char
  | [] => ['\x7d']
  | (k, v) :: rest => ',' :: quoted k ++ ':' :: compact v ++ compactEntries rest

end

def newLine (depth : Nat) : List Char := '\n' :: List.replicate (2 * depth) ' '

mutual

def spread (depth : Nat) : Value → List Char
  | list (v :: rest) =>
    '[' :: newLine (depth + 1) ++ spread (depth + 1) v ++ spreadItems depth rest
  | object ((k, v) :: rest) =>
    '\x7b' :: newLine (depth + 1) ++ quoted k ++ ':' :: ' ' :: spread (depth + 1) v ++
      spreadEntries depth rest
  | v => compact v

def spreadItems (depth : Nat) : List Value → List Char
  | [] => newLine depth ++ [']']
  | v :: rest => ',' :: newLine (depth + 1) ++ spread (depth + 1) v ++ spreadItems depth rest

def spreadEntries (depth : Nat) : List (List Char × Value) → List Char
  | [] => newLine depth ++ ['\x7d']
  | (k, v) :: rest =>
    ',' :: newLine (depth + 1) ++ quoted k ++ ':' :: ' ' :: spread (depth + 1) v ++
      spreadEntries depth rest

end

def line (v : Value) : String := String.ofList v.compact

def pretty (v : Value) : String := String.ofList (spread 0 v)

end Multicloud.Json.Value
