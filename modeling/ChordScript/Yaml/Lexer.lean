import ChordScript.Yaml.Block
import ChordScript.Yaml.Folding
import ChordScript.Yaml.Tag

/-!
# From source to tokens

Tokens are found from left to right, but what begins a mapping shows only at the colon after its
first key. So the places where a key may begin are remembered, one for every open bracket, and the
tokens for the key and for the mapping are put in there later. Indentation opens and closes blocks
outside of brackets.
-/

namespace ChordScript.Yaml

structure KeyPlace where
  tokens : Nat
  spot : Spot
  required : Bool

def longestKey : Nat := 1024

def deepestFlow : Nat := 255

structure Lexer where
  source : Source
  tokens : Array Token := #[]
  keyAllowed : Bool := true
  key : Option KeyPlace := none
  outerKeys : List (Option KeyPlace) := []
  indent : Int := -1
  outerIndents : List Int := []
  quoteEnd : Nat := 0

namespace Lexer

def inFlow (l : Lexer) : Bool := !l.outerKeys.isEmpty

def spot (l : Lexer) : Spot := l.source.spot

def emit (l : Lexer) (t : Token) : Lexer := { l with tokens := l.tokens.push t }

def emitAt (l : Lexer) (n : Nat) (t : Token) : Lexer :=
  { l with tokens := (l.tokens.extract 0 n).push t ++ l.tokens.extract n l.tokens.size }

def skip (l : Lexer) (n : Nat) : Lexer := { l with source := l.source.advance n }

/-- Steps over blanks, line breaks and comments. A line break outside of brackets allows a key; where
a key may begin, a tab is no blank. -/
def skipBlanks (inFlow : Bool) (keyAllowed inComment : Bool) : Source → Source × Bool
  | [] => ([], keyAllowed)
  | x :: s =>
    if isBreak x.char then skipBlanks inFlow (keyAllowed || !inFlow) false s
    else if inComment then
      if x.char = endChar then (x :: s, keyAllowed) else skipBlanks inFlow keyAllowed true s
    else if x.char = ' ' ∨ (x.char = '\t' ∧ (inFlow ∨ !keyAllowed)) then
      skipBlanks inFlow keyAllowed false s
    else if x.char = '#' then skipBlanks inFlow keyAllowed true s
    else (x :: s, keyAllowed)

def isStale (now : Spot) (k : KeyPlace) : Bool :=
  k.spot.line < now.line || k.spot.index + longestKey < now.index

def dropStale (l : Lexer) : Option Lexer :=
  let stale : Option KeyPlace → Bool := fun k => k.any (isStale l.spot)
  let lost : Option KeyPlace → Bool := fun k => k.any fun k => isStale l.spot k && k.required
  let keep : Option KeyPlace → Option KeyPlace := fun k => if stale k then none else k
  if lost l.key || l.outerKeys.any lost then none
  else some { l with key := keep l.key, outerKeys := l.outerKeys.map keep }

def dropKey (l : Lexer) : Option Lexer :=
  if l.key.any (·.required) then none else some { l with key := none }

def markKey (l : Lexer) : Option Lexer :=
  if l.keyAllowed then do
    let l ← l.dropKey
    let required := l.inFlow && l.indent == (l.spot.column : Int)
    return { l with key := some ⟨l.tokens.size, l.spot, required⟩ }
  else some l

def closeBlocks (column : Int) : List Int → Lexer → Lexer
  | [], l => l
  | outer :: outers, l =>
    if column < l.indent then
      closeBlocks column outers { l.emit .blockEnd with indent := outer, outerIndents := outers }
    else l

def unindent (l : Lexer) (column : Int) : Lexer :=
  if l.inFlow then l else closeBlocks column l.outerIndents l

def openBlock (l : Lexer) (column n : Nat) (t : Token) : Lexer :=
  if !l.inFlow && l.indent < column then
    { l.emitAt n t with indent := column, outerIndents := l.indent :: l.outerIndents }
  else l

def allowKey (l : Lexer) (b : Bool) : Lexer := { l with keyAllowed := b }

def lexDirective (l : Lexer) : Option Lexer := do
  let l ← (l.unindent (-1)).dropKey
  let source ← Directive.skip? (l.source.advance 1)
  return { l.emit .directive with source, keyAllowed := false }

def lexDocumentMarker (l : Lexer) (t : Token) : Option Lexer := do
  let l ← (l.unindent (-1)).dropKey
  return ((l.allowKey false).emit t).skip 3

def lexFlowStart (l : Lexer) (t : Token) : Option Lexer := do
  let l ← l.markKey
  if l.outerKeys.length = deepestFlow then none
  else
    return { (l.emit t).skip 1 with
      key := none, outerKeys := l.key :: l.outerKeys, keyAllowed := true }

def lexFlowEnd (l : Lexer) (t : Token) : Option Lexer := do
  let l ← l.dropKey
  let l := ((l.allowKey false).emit t).skip 1
  match l.outerKeys with
  | [] => return l
  | key :: outerKeys => return { l with key, outerKeys }

def lexFlowEntry (l : Lexer) : Option Lexer := do
  let l ← l.dropKey
  return ((l.allowKey true).emit .flowEntry).skip 1

def lexBlockEntry (l : Lexer) : Option Lexer := do
  if l.inFlow || !l.keyAllowed then none
  else
    let l ← (l.openBlock l.spot.column l.tokens.size .blockSequenceStart).dropKey
    return ((l.allowKey true).emit .blockEntry).skip 1

def lexKey (l : Lexer) : Option Lexer := do
  if !l.inFlow && !l.keyAllowed then none
  else
    let l ← (l.openBlock l.spot.column l.tokens.size .blockMappingStart).dropKey
    return ((l.allowKey !l.inFlow).emit .key).skip 1

def lexValue (l : Lexer) : Option Lexer :=
  match l.key with
  | some k =>
    let l := (l.emitAt k.tokens .key).openBlock k.spot.column k.tokens .blockMappingStart
    some ((({ l with key := none }.allowKey false).emit .value).skip 1)
  | none =>
    if !l.inFlow && !l.keyAllowed then none
    else
      let l := l.openBlock l.spot.column l.tokens.size .blockMappingStart
      some (((l.allowKey !l.inFlow).emit .value).skip 1)

def lexName (l : Lexer) (t : String → Token) : Option Lexer := do
  let l ← l.markKey
  let (name, source) ← readName (l.source.advance 1)
  return { l.emit (t name) with source, keyAllowed := false }

def lexTag (l : Lexer) : Option Lexer := do
  let l ← l.markKey
  let (tag, source) ← Tag.read l.source
  return { l.emit (.tag tag) with source, keyAllowed := false }

def lexBlockScalar (l : Lexer) (literal : Bool) : Option Lexer := do
  let l ← l.markKey
  let (text, source) ← Block.read literal l.indent (l.source.advance 1)
  return { l.emit (.scalar .block text) with source, keyAllowed := true }

def lexQuoted (l : Lexer) (quote : Char) : Option Lexer := do
  let l ← l.markKey
  let (text, source) ← Quoted.read quote (l.source.advance 1)
  return { l.emit (.scalar .quoted text) with
    source, keyAllowed := false, quoteEnd := source.spot.index }

def lexPlain (l : Lexer) : Option Lexer := do
  let l ← l.markKey
  let context : PlainContext := ⟨l.indent + 1, l.inFlow⟩
  let (f, source) ← context.read {} false l.source
  return { l.emit (.scalar .plain f.result) with source, keyAllowed := f.broken }

/-- A colon is an indicator before a blank, and within brackets also before one of their characters
or right after a quoted scalar. -/
def atValue (l : Lexer) (next : Char) : Bool :=
  isGapOrEnd next || (l.inFlow && (isFlow next || l.spot.index == l.quoteEnd))

def lexToken (l : Lexer) : Option Lexer :=
  let next := l.source.peekAt 1
  if l.spot.column = 0 ∧ l.spot.char = '%' then l.lexDirective
  else if l.source.atMarker '-' then l.lexDocumentMarker .documentStart
  else if l.source.atMarker '.' then l.lexDocumentMarker .documentEnd
  else
    match l.spot.char with
    | '[' => l.lexFlowStart .flowSequenceStart
    | '{' => l.lexFlowStart .flowMappingStart
    | ']' => l.lexFlowEnd .flowSequenceEnd
    | '}' => l.lexFlowEnd .flowMappingEnd
    | ',' => l.lexFlowEntry
    | '-' => if isGapOrEnd next then l.lexBlockEntry else l.lexPlain
    | '?' => if isGapOrEnd next then l.lexKey else l.lexPlain
    | ':' => if l.atValue next then l.lexValue else l.lexPlain
    | '*' => l.lexName .alias
    | '&' => l.lexName .anchor
    | '!' => l.lexTag
    | '|' => if l.inFlow then l.lexPlain else l.lexBlockScalar true
    | '>' => if l.inFlow then l.lexPlain else l.lexBlockScalar false
    | '\'' => l.lexQuoted '\''
    | '"' => l.lexQuoted '"'
    | '%' => none
    | '@' => none
    | '\x60' => none
    | _ => l.lexPlain

/-- Finds all tokens. Each of them takes at least one character, so the length of the source is
enough `fuel`. -/
def run : Nat → Lexer → Option (List Token)
  | 0, _ => none
  | fuel + 1, l => do
    let (source, keyAllowed) := skipBlanks l.inFlow l.keyAllowed false l.source
    let l ← dropStale { l with source, keyAllowed }
    let l := l.unindent l.spot.column
    if l.spot.char = endChar then
      let l ← (l.unindent (-1)).dropKey
      return (l.emit .streamEnd).tokens.toList
    else run fuel (← l.lexToken)

end Lexer

def tokens? (text : String) : Option (List Token) :=
  let source := spots text
  Lexer.run source.length { source }

end ChordScript.Yaml
