import ChordScript.Yaml.Source
import ChordScript.Yaml.Token

namespace ChordScript.Yaml

def readName (s : Source) : Option (String × Source) :=
  let name := s.charsWhile isNameChar
  let s := s.skipWhile isNameChar
  if name.isEmpty then none
  else if isGapOrEnd s.peek || "?:,]%@\x60\x7d".toList.contains s.peek then some (.ofList name, s)
  else none

namespace Tag

def isUriChar (c : Char) : Bool := isNameChar c || ";/?:@&=+$,.!~*'()[]%".toList.contains c

def octetCount? (octet : Nat) : Option Nat :=
  if octet < 0x80 then some 1
  else if octet / 0x20 = 6 then some 2
  else if octet / 0x10 = 14 then some 3
  else if octet / 0x08 = 30 then some 4
  else none

structure Octets where
  left : Nat := 0
  code : Nat := 0

def Octets.add? (o : Octets) (octet : Nat) : Option Octets :=
  if o.left = 0 then (octetCount? octet).map fun n => ⟨n - 1, octet⟩
  else if octet / 0x40 = 2 then some ⟨o.left - 1, 256 * o.code + octet⟩
  else none

def readUri (text : List Char) (o : Octets) : Source → Option (List Char × Source)
  | x :: y :: z :: s =>
    if x.char = '%' then do
      let high ← hexDigit? y.char
      let low ← hexDigit? z.char
      let o ← o.add? (16 * high + low)
      if o.left ≠ 0 then readUri text o s
      else if o.code.isValidChar then readUri (.ofNat o.code :: text) {} s
      else none
    else if o.left ≠ 0 then none
    else if isUriChar x.char then readUri (x.char :: text) {} (y :: z :: s)
    else some (text.reverse, x :: y :: z :: s)
  | x :: s =>
    if o.left ≠ 0 ∨ x.char = '%' then none
    else if isUriChar x.char then readUri (x.char :: text) {} s
    else some (text.reverse, x :: s)
  | [] => some (text.reverse, [])

def uri? (s : Source) : Option (List Char × Source) := readUri [] {} s

/-- A handle is an exclamation mark, or a name between two of them; one that is not closed is the
beginning of a suffix. -/
def handle? (s : Source) : Option (List Char × Source) :=
  if s.peek ≠ '!' then none
  else
    let name := (s.advance 1).charsWhile isNameChar
    let s := (s.advance 1).skipWhile isNameChar
    if s.peek = '!' then some ('!' :: name ++ ['!'], s.advance 1) else some ('!' :: name, s)

def isClosed (handle : List Char) : Bool := 2 ≤ handle.length && handle.getLast? == some '!'

def readVerbatim (s : Source) : Option (Tag × Source) := do
  let (suffix, s) ← uri? s
  if suffix.isEmpty || s.peek != '>' then none else some (⟨"", .ofList suffix⟩, s.advance 1)

def readShort (s : Source) : Option (Tag × Source) := do
  let (handle, s) ← handle? s
  let (suffix, s) ← uri? s
  if isClosed handle then
    if suffix.isEmpty then none else some (⟨.ofList handle, .ofList suffix⟩, s)
  else
    let suffix := handle.drop 1 ++ suffix
    if suffix.isEmpty then some (⟨"", "!"⟩, s) else some (⟨"!", .ofList suffix⟩, s)

def read (s : Source) : Option (Tag × Source) := do
  let (tag, s) ← if s.peekAt 1 = '<' then readVerbatim (s.advance 2) else readShort s
  if isGapOrEnd s.peek then some (tag, s) else none

end Tag

namespace Directive

def number? (s : Source) : Option Source :=
  let digits := s.charsWhile Char.isDigit
  if digits.isEmpty || 9 < digits.length then none else some (s.skipWhile Char.isDigit)

def version? (s : Source) : Option Source := do
  let s ← number? (s.skipWhile isGap)
  if s.peek = '.' then number? (s.advance 1) else none

def tag? (s : Source) : Option Source := do
  let (handle, s) ← Tag.handle? (s.skipWhile isGap)
  if handle ≠ ['!'] ∧ !Tag.isClosed handle then none
  else
    let (shorthand, s) ← Tag.uri? (s.skipWhile isGap)
    if shorthand.isEmpty || !isGapOrEnd s.peek then none else some s

def skip? (s : Source) : Option Source := do
  let name := s.charsWhile isNameChar
  let s := s.skipWhile isNameChar
  if name.isEmpty || !isGapOrEnd s.peek then none
  else
    let s ←
      if name = "YAML".toList then version? s
      else if name = "TAG".toList then tag? s
      else some (s.skipWhile (!isBreakOrEnd ·))
    s.restOfLine?

end Directive

end ChordScript.Yaml
