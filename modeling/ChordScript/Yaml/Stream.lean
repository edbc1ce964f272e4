import ChordScript.Yaml.Lexer
import ChordScript.Yaml.Node

/-!
# From tokens to documents

The grammar of documents, read with one token in advance. Blocks are delimited by tokens of their
own, so indentation plays no part here.
-/

namespace ChordScript.Yaml

namespace Node

structure Properties where
  anchor : Option Nat := none
  tag : Option Tag := none

structure Reading where
  tokens : List Token
  names : List (String × Nat) := []
  count : Nat := 0
  anchored : List (Nat × Node) := []

abbrev Reader := StateT Reading Option

def peek : Reader Token := do return (← get).tokens.headD .streamEnd

def skip : Reader Unit := modify fun r => { r with tokens := r.tokens.tail }

def fault {α : Type} : Reader α := StateT.lift none

def anchor (name : String) : Reader Nat := do
  let r ← get
  set { r with names := (name, r.count) :: r.names, count := r.count + 1 }
  return r.count

def properties : Reader Properties := do
  match ← peek with
  | .anchor name =>
    skip
    let a ← anchor name
    match ← peek with
    | .tag tag =>
      skip
      return ⟨some a, some tag⟩
    | _ => return ⟨some a, none⟩
  | .tag tag =>
    skip
    match ← peek with
    | .anchor name =>
      skip
      return ⟨some (← anchor name), some tag⟩
    | _ => return ⟨none, some tag⟩
  | _ => return {}

def keep (p : Properties) (node : Node) : Reader Node := do
  match p.anchor with
  | some a => modify fun r => { r with anchored := (a, node) :: r.anchored }
  | none => pure ()
  return node

def empty (p : Properties) : Reader Node :=
  if p.anchor.isSome || p.tag.isSome then keep p (.scalar .plain p.tag "") else fault

mutual

/-- Reads a node. Blocks may begin only in a `block`, and entries without indentation of their own
only in an `indentless` place. Every call takes one from `fuel`. -/
def node (fuel : Nat) (block indentless : Bool) : Reader Node := do
  match fuel with
  | 0 => fault
  | fuel + 1 =>
    match ← peek with
    | .alias name =>
      skip
      match (← get).names.lookup name with
      | some a => return .alias a
      | none => fault
    | _ =>
      let p ← properties
      match ← peek with
      | .blockEntry =>
        if indentless then keep p (.sequence (← indentlessItems fuel)) else empty p
      | .scalar style text =>
        skip
        keep p (.scalar style p.tag text)
      | .flowSequenceStart =>
        skip
        keep p (.sequence (← flowItems fuel true))
      | .flowMappingStart =>
        skip
        keep p (.mapping (← flowEntries fuel true))
      | .blockSequenceStart =>
        if block then
          skip
          keep p (.sequence (← blockItems fuel))
        else empty p
      | .blockMappingStart =>
        if block then
          skip
          keep p (.mapping (← blockEntries fuel))
        else empty p
      | _ => empty p

def indentlessItems (fuel : Nat) : Reader (List Node) := do
  match fuel with
  | 0 => fault
  | fuel + 1 =>
    match ← peek with
    | .blockEntry =>
      skip
      let item ← match ← peek with
        | .blockEntry => pure absent
        | .key => pure absent
        | .value => pure absent
        | .blockEnd => pure absent
        | _ => node fuel true false
      return item :: (← indentlessItems fuel)
    | _ => return []

def blockItems (fuel : Nat) : Reader (List Node) := do
  match fuel with
  | 0 => fault
  | fuel + 1 =>
    match ← peek with
    | .blockEnd =>
      skip
      return []
    | .blockEntry =>
      skip
      let item ← match ← peek with
        | .blockEntry => pure absent
        | .blockEnd => pure absent
        | _ => node fuel true false
      return item :: (← blockItems fuel)
    | _ => fault

def blockPart (fuel : Nat) : Reader Node := do
  match fuel with
  | 0 => fault
  | fuel + 1 =>
    match ← peek with
    | .key => return absent
    | .value => return absent
    | .blockEnd => return absent
    | _ => node fuel true true

def blockEntries (fuel : Nat) : Reader (List (Node × Node)) := do
  match fuel with
  | 0 => fault
  | fuel + 1 =>
    match ← peek with
    | .blockEnd =>
      skip
      return []
    | .key =>
      skip
      let key ← blockPart fuel
      let value ← blockValue fuel
      return (key, value) :: (← blockEntries fuel)
    | .value =>
      let value ← blockValue fuel
      return (absent, value) :: (← blockEntries fuel)
    | _ => fault

def blockValue (fuel : Nat) : Reader Node := do
  match fuel with
  | 0 => fault
  | fuel + 1 =>
    match ← peek with
    | .value =>
      skip
      blockPart fuel
    | _ => return absent

def flowItems (fuel : Nat) (first : Bool) : Reader (List Node) := do
  match fuel with
  | 0 => fault
  | fuel + 1 =>
    match ← peek with
    | .flowSequenceEnd =>
      skip
      return []
    | t =>
      if !first then
        if t = .flowEntry then skip else fault
      match ← peek with
      | .flowSequenceEnd =>
        skip
        return []
      | .key =>
        skip
        let pair ← flowPair fuel
        return .mapping [pair] :: (← flowItems fuel false)
      | _ =>
        let item ← node fuel false false
        return item :: (← flowItems fuel false)

def flowPair (fuel : Nat) : Reader (Node × Node) := do
  match fuel with
  | 0 => fault
  | fuel + 1 =>
    let key ← match ← peek with
      | .value => skip *> pure absent
      | .flowEntry => skip *> pure absent
      | .flowSequenceEnd => skip *> pure absent
      | _ => node fuel false false
    match ← peek with
    | .value =>
      skip
      match ← peek with
      | .flowEntry => return (key, absent)
      | .flowSequenceEnd => return (key, absent)
      | _ => return (key, ← node fuel false false)
    | _ => return (key, absent)

def flowEntries (fuel : Nat) (first : Bool) : Reader (List (Node × Node)) := do
  match fuel with
  | 0 => fault
  | fuel + 1 =>
    match ← peek with
    | .flowMappingEnd =>
      skip
      return []
    | t =>
      if !first then
        if t = .flowEntry then skip else fault
      match ← peek with
      | .flowMappingEnd =>
        skip
        return []
      | .key =>
        skip
        let key ← match ← peek with
          | .value => pure absent
          | .flowEntry => pure absent
          | .flowMappingEnd => pure absent
          | _ => node fuel false false
        let value ← flowValue fuel
        return (key, value) :: (← flowEntries fuel false)
      | .value =>
        let value ← flowValue fuel
        return (absent, value) :: (← flowEntries fuel false)
      | _ =>
        let key ← node fuel false false
        return (key, absent) :: (← flowEntries fuel false)

def flowValue (fuel : Nat) : Reader Node := do
  match fuel with
  | 0 => fault
  | fuel + 1 =>
    match ← peek with
    | .value =>
      skip
      match ← peek with
      | .flowEntry => return absent
      | .flowMappingEnd => return absent
      | _ => node fuel false false
    | _ => return absent

end

def explicitContent (fuel : Nat) : Reader Node := do
  match ← peek with
  | .directive => return absent
  | .documentStart => return absent
  | .documentEnd => return absent
  | .streamEnd => return absent
  | _ => node fuel true false

def skipAll (t : Token) : Nat → Reader Unit
  | 0 => pure ()
  | fuel + 1 => do
    if (← peek) = t then
      skip
      skipAll t fuel

/-- Reads the documents up to the end of the stream. Only the first one may begin without a marker,
and without directives. -/
def documents : Nat → Bool → Reader (List Node)
  | 0, _ => fault
  | fuel + 1, implicit => do
    modify fun r => { r with names := [] }
    if !implicit then skipAll .documentEnd fuel
    match ← peek with
    | .streamEnd => return []
    | t =>
      let root ←
        if implicit && t != .directive && t != .documentStart then node fuel true false
        else do
          skipAll .directive fuel
          if (← peek) = .documentStart then
            skip
            explicitContent fuel
          else fault
      if (← peek) = .documentEnd then skip
      return root :: (← documents fuel false)

end Node

def Stream.read? (text : String) : Option Stream := do
  let tokens ← tokens? text
  let (documents, r) ← (Node.documents (4 * tokens.length + 8) true).run { tokens }
  return ⟨documents, r.anchored⟩

end ChordScript.Yaml
