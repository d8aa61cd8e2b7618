namespace Multicloud.Yaml

inductive Style where
  | plain
  | quoted
  | block
  deriving DecidableEq, Repr

/-- What a document is made of, below nodes. A tag's suffix is bytes: escapes in it may spell
anything. -/
inductive Token where
  | version (major minor : Nat)
  | tagHandle (handle : List Char) (start : List UInt8)
  | documentStart
  | documentEnd
  | blockSequence
  | blockMapping
  | blockEnd
  | flowSequence
  | flowSequenceEnd
  | flowMapping
  | flowMappingEnd
  | entry
  | comma
  | key
  | value
  | aliasOf (name : List Char)
  | anchor (name : List Char)
  | tag (handle : List Char) (suffix : List UInt8)
  | scalar (style : Style) (text : List Char)
  deriving DecidableEq, Repr

end Multicloud.Yaml
