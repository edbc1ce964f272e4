namespace ChordScript.Text

def numberBound : Nat := Nat.pow 2 32

def numeral (n : Nat) : List Char := Nat.toDigits 10 n

def signedNumeral : Int → List Char
  | .ofNat n => numeral n
  | .negSucc n => '-' :: numeral (n + 1)

def digits (s : List Char) : List Char := s.takeWhile Char.isDigit

def afterDigits (s : List Char) : List Char := s.dropWhile Char.isDigit

def valueOf (ds : List Char) : Nat := Nat.ofDigitChars 10 ds 0

@[simp] theorem digits_append_afterDigits (s : List Char) : digits s ++ afterDigits s = s :=
  List.takeWhile_append_dropWhile

@[simp] theorem valueOf_numeral (n : Nat) : valueOf (numeral n) = n :=
  Nat.ofDigitChars_toDigits (by decide) (by decide)

def number? (s : List Char) : Option (Nat × List Char) :=
  if digits s = [] ∨ numberBound ≤ valueOf (digits s) then none
  else some (valueOf (digits s), afterDigits s)

end ChordScript.Text
