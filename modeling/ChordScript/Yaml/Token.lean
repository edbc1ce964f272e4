namespace ChordScript.Yaml

inductive Style
  | plain
  | quoted
  | block
  deriving DecidableEq, Repr

structure Tag where
  handle : String
  suffix : String
  deriving DecidableEq, Repr

inductive Token
  | directive
  | documentStart
  | documentEnd
  | streamEnd
  | blockSequenceStart
  | blockMappingStart
  | blockEnd
  | flowSequenceStart
  | flowSequenceEnd
  | flowMappingStart
  | flowMappingEnd
  | blockEntry
  | flowEntry
  | key
  | value
  | alias (name : String)
  | anchor (name : String)
  | tag (tag : Tag)
  | scalar (style : Style) (text : String)
  deriving DecidableEq, Repr

end ChordScript.Yaml
