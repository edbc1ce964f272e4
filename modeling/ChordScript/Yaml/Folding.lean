import ChordScript.Yaml.Source

namespace ChordScript.Yaml

structure Folding where
  text : List Char := []
  gap : List Char := []
  broken : Bool := false
  spaced : Bool := false
  extra : Nat := 0

namespace Folding

def addGap (f : Folding) (c : Char) : Folding := if f.broken then f else { f with gap := c :: f.gap }

def addBreak (f : Folding) : Folding :=
  if f.broken then { f with extra := f.extra + 1 }
  else { f with gap := [], broken := true, spaced := true }

def flush (f : Folding) : Folding :=
  let between : List Char :=
    if f.broken then
      if f.spaced && f.extra == 0 then [' '] else .replicate f.extra '\n'
    else f.gap
  { text := between ++ f.text }

def add (f : Folding) (c : Char) : Folding := { f.flush with text := c :: f.flush.text }

def result (f : Folding) : String := .ofList f.text.reverse

end Folding

structure PlainContext where
  indent : Int
  inFlow : Bool

namespace PlainContext

def endsAt (p : PlainContext) (c next : Char) : Bool :=
  (c == ':' && (isGapOrEnd next || (p.inFlow && isFlow next))) || (p.inFlow && isFlow c)

def read (p : PlainContext) (f : Folding) (afterGap : Bool) : Source → Option (Folding × Source)
  | [] => some (f, [])
  | x :: s =>
    let next := Source.peek s
    if isBreak x.char then p.read f.addBreak true s
    else if isGap x.char then
      if f.broken ∧ x.char = '\t' ∧ x.column < p.indent then none
      else p.read (f.addGap x.char) true s
    else if x.char = endChar then some (f, x :: s)
    else if afterGap ∧ ((!p.inFlow ∧ x.column < p.indent) ∨ x.char = '#' ∨
        Source.atDocumentMarker (x :: s)) then
      some (f, x :: s)
    else if p.endsAt x.char next then some (f, x :: s)
    else p.read (f.add x.char) false s

end PlainContext

namespace Quoted

def escape? : Char → Option Char
  | '0' => some '\x00'
  | 'a' => some '\x07'
  | 'b' => some '\x08'
  | 't' => some '\t'
  | '\t' => some '\t'
  | 'n' => some '\n'
  | 'v' => some '\x0b'
  | 'f' => some '\x0c'
  | 'r' => some '\x0d'
  | 'e' => some '\x1b'
  | ' ' => some ' '
  | '"' => some '"'
  | '\'' => some '\''
  | '\\' => some '\\'
  | 'N' => some '\u0085'
  | '_' => some '\u00a0'
  | 'L' => some '\u2028'
  | 'P' => some '\u2029'
  | _ => none

def codeLength? : Char → Option Nat
  | 'x' => some 2
  | 'u' => some 4
  | 'U' => some 8
  | _ => none

def scalarValue? (n : Nat) : Option Char :=
  if n.isValidChar then some (.ofNat n) else none

inductive Mode
  | text
  | escape
  | code (left : Nat) (value : Nat)

def readDouble (f : Folding) : Mode → Source → Option (Folding × Source)
  | _, [] => none
  | .escape, x :: s =>
    if isBreak x.char then readDouble { f with broken := true } .text s
    else
      match escape? x.char, codeLength? x.char with
      | some c, _ => readDouble (f.add c) .text s
      | none, some n => readDouble f (.code n 0) s
      | none, none => none
  | .code left value, x :: s => do
    let digit ← hexDigit? x.char
    let value := 16 * value + digit
    if left ≤ 1 then readDouble (f.add (← scalarValue? value)) .text s
    else readDouble f (.code (left - 1) value) s
  | .text, x :: s =>
    if isBreak x.char then readDouble f.addBreak .text s
    else if isGap x.char then readDouble (f.addGap x.char) .text s
    else if x.char = endChar ∨ Source.atDocumentMarker (x :: s) then none
    else if x.char = '"' then some (f.flush, s)
    else if x.char = '\\' then readDouble f.flush .escape s
    else readDouble (f.add x.char) .text s

/-- Reads a single-quoted scalar after its first quote; a quote within it is written twice, and
`half` says that the first of two has been read. -/
def readSingle (f : Folding) (half : Bool) : Source → Option (Folding × Source)
  | [] => none
  | x :: s =>
    if half then readSingle (f.add x.char) false s
    else if isBreak x.char then readSingle f.addBreak false s
    else if isGap x.char then readSingle (f.addGap x.char) false s
    else if x.char = endChar ∨ Source.atDocumentMarker (x :: s) then none
    else if x.char = '\'' then
      if Source.peek s = '\'' then readSingle f true s else some (f.flush, s)
    else readSingle (f.add x.char) false s

def read (quote : Char) (s : Source) : Option (String × Source) := do
  let (f, s) ← if quote = '"' then readDouble {} .text s else readSingle {} false s
  return (f.result, s)

end Quoted

end ChordScript.Yaml
