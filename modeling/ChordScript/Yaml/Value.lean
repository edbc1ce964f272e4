import ChordScript.Text.Numeral
import ChordScript.Yaml.Source
import ChordScript.Yaml.Token

namespace ChordScript.Yaml

inductive Value
  | null
  | bool (b : Bool)
  | int (n : Int)
  | wide (n : Int)
  | float (x : Float)
  | text (s : String)

namespace Value

def digitIn? (base : Nat) (c : Char) : Option Nat := (hexDigit? c).filter (· < base)

def natural? (base : Nat) (s : List Char) : Option Nat :=
  if s.isEmpty then none
  else (s.mapM (digitIn? base)).map fun ds => ds.foldl (fun n d => base * n + d) 0

def integer? (base : Nat) : List Char → Option Int
  | '-' :: s => (natural? base s).map fun n => -(n : Int)
  | '+' :: s => (natural? base s).map Int.ofNat
  | s => (natural? base s).map Int.ofNat

def fits (bits : Nat) (n : Int) : Bool := -(Int.pow 2 (bits - 1)) ≤ n && n < Int.pow 2 bits

def isUnsigned (s : List Char) : Bool := s.head? != some '-'

def afterMark? (mark : Char) : List Char → Option (Bool × List Char)
  | '-' :: '0' :: c :: s => if c = mark then some (true, s) else none
  | '+' :: '0' :: c :: s => if c = mark then some (false, s) else none
  | '0' :: c :: s => if c = mark then some (false, s) else none
  | _ => none

/-- A number with a base mark. Without a minus sign in front of the mark a plus sign may follow it. -/
def marked? (base : Nat) (mark : Char) (s : List Char) : Option Int := do
  match ← afterMark? mark s with
  | (true, s) => (natural? base s).bind fun n => if n ≤ Nat.pow 2 63 then some (-(n : Int)) else none
  | (false, s) =>
    if isUnsigned s then (integer? base s).bind fun n => if n < Int.pow 2 64 then some n else none
    else none

def isPadded (s : List Char) : Bool :=
  match s.dropWhile fun c => c == '-' || c == '+' with
  | '0' :: c :: s => (c :: s).all Char.isDigit
  | _ => false

structure Decimal where
  negative : Bool
  whole : List Char
  places : List Char
  exponent : Int

def exponent? : List Char → Option Int
  | [] => some 0
  | c :: s => if c = 'e' ∨ c = 'E' then integer? 10 s else none

def Decimal.read? (s : List Char) : Option Decimal :=
  let negative := s.head? == some '-'
  let s := if negative || s.head? == some '+' then s.drop 1 else s
  let whole := Text.digits s
  let s := Text.afterDigits s
  let (places, s) :=
    match s with
    | '.' :: s => (Text.digits s, Text.afterDigits s)
    | s => ([], s)
  if whole.isEmpty && places.isEmpty then none
  else (exponent? s).map fun e => ⟨negative, whole, places, e⟩

def Decimal.toFloat (d : Decimal) : Float :=
  let digits := Text.valueOf (d.whole ++ d.places)
  let exponent := d.exponent - d.places.length
  let x := Float.ofScientific digits (exponent < 0) exponent.natAbs
  if d.negative then -x else x

def infinity : Float := 1.0 / 0.0

def notANumber : Float := 0.0 / 0.0

def word? (s : List Char) : Option Float :=
  let word := String.ofList (s.map Char.toLower)
  if ["inf", "+inf", "infinity", "+infinity"].contains word then some infinity
  else if ["-inf", "-infinity"].contains word then some (-infinity)
  else if ["nan", "+nan", "-nan"].contains word then some notANumber
  else none

def number? (s : List Char) : Option Float := word? s <|> (Decimal.read? s).map (·.toFloat)

def special? (s : List Char) : Option Float :=
  if [".inf", ".Inf", ".INF"].contains (.ofList (s.dropWhile (· == '+'))) then some infinity
  else if ["-.inf", "-.Inf", "-.INF"].contains (.ofList s) then some (-infinity)
  else if [".nan", ".NaN", ".NAN"].contains (.ofList s) then some notANumber
  else none

/-- What a plain scalar has to be for a floating-point number: apart from the special words it is
finite. -/
def float? (s : List Char) : Option Float := special? s <|> (number? s).filter Float.isFinite

def ofPlain (text : String) : Value :=
  let s := text.toList
  if text = "~" ∨ text = "null" then .null
  else if text = "true" then .bool true
  else if text = "false" then .bool false
  else
    match marked? 16 'x' s <|> marked? 8 'o' s <|> marked? 2 'b' s with
    | some n => .int n
    | none =>
      if isPadded s then .text text
      else
        match integer? 10 s, float? s with
        | some n, x =>
          if fits 64 n then .int n
          else if fits 128 n then .wide n
          else x.elim (.text text) .float
        | none, some x => .float x
        | none, none => .text text

def ofTagged (suffix text : String) : Option Value :=
  if suffix = "null" then if text = "~" ∨ text = "null" then some .null else none
  else if suffix = "bool" then
    if text = "true" then some (.bool true)
    else if text = "false" then some (.bool false)
    else none
  else if suffix = "int" then
    ((integer? 10 text.toList).filter fun n => -(Int.pow 2 63) ≤ n && n < Int.pow 2 63).map .int
  else if suffix = "float" then (number? text.toList).map .float
  else some (.text text)

def ofScalar (style : Style) (tag : Option Tag) (text : String) : Option Value :=
  match style, tag with
  | _, some tag => if tag.handle = "!!" then ofTagged tag.suffix text else some (.text text)
  | .plain, none => some (ofPlain text)
  | _, none => some (.text text)

def isMissing (style : Style) (tag : Option Tag) (text : String) : Option Bool :=
  match style, tag with
  | .plain, none => some (text = "~" ∨ text = "null")
  | .plain, some tag =>
    if tag.handle = "!!" ∧ tag.suffix = "null" then
      if text = "~" ∨ text = "null" then some true else none
    else some false
  | _, _ => some false

end Value

end ChordScript.Yaml
