import ChordScript.Yaml.Token

namespace ChordScript.Yaml

inductive Node
  | scalar (style : Style) (tag : Option Tag) (text : String)
  | sequence (items : List Node)
  | mapping (entries : List (Node × Node))
  | alias (anchor : Nat)
  deriving Repr

structure Stream where
  documents : List Node
  anchored : List (Nat × Node)
  deriving Repr

namespace Stream

def resolve (s : Stream) : Node → Node
  | .alias anchor => (s.anchored.lookup anchor).getD (.alias anchor)
  | node => node

end Stream

namespace Node

def absent : Node := .scalar .plain none "~"

end Node

end ChordScript.Yaml
