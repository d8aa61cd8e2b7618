namespace Multicloud.Yaml

inductive Fault where
  | encoding
  | character
  | token
  | arrangement
  | directive
  | tagHandle
  | anchor
  | depth
  | repetition
  | severalDocuments
  | duplicateKey
  | scalar
  | shape
  deriving DecidableEq, Repr

end Multicloud.Yaml
